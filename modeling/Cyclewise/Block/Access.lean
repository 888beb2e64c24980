import Cyclewise.OrderedMap
import Cyclewise.Signal.Set
import Cyclewise.Block.Behavior

/-!
# What a body reads and writes

One scan over the body of a block finds

* the signals that it may read and write (`BlockAccess`);
* a `Dependency` for every signal that an assignment reads and every other signal that it writes.
  An assignment reads what its value and its index expressions read, its own targets when it
  updates them in place, and whatever guards it;
* its loops, which the analysis refuses and does not enter.

A local variable carries the signals that its value was computed from (its taint).  Inside a
conditional a second binding adds to the taint, for the other arm may have made the first one.
In an else arm the tests of earlier conditionals of that same arm guard the statements after them.
-/

namespace Cyclewise

/-- The signals that a block may read and write. -/
structure BlockAccess where
  reads : SignalSet
  writes : SignalSet
deriving Inhabited

namespace BlockAccess

instance : EmptyCollection BlockAccess := ⟨⟨∅, ∅⟩⟩

end BlockAccess

/-- The statement at `span` makes `written` depend on `read`. -/
structure Dependency where
  read : SignalId
  written : SignalId
  span : Span
deriving DecidableEq

/-- The constructs that the analysis refuses. -/
inductive LoopKind where
  | forLoop
  | whileLoop
deriving DecidableEq

instance : ToString LoopKind where
  toString
    | .forLoop => "for loop"
    | .whileLoop => "while loop"

/-- A loop and its position. -/
structure LoopSite where
  kind : LoopKind
  span : Span
deriving DecidableEq

/-- The signals that each bound local variable was computed from. -/
abbrev Taints := OrderedMap String SignalSet

namespace Expr

/-- The signals that an expression reads, directly or through locals.  Calls read nothing. -/
def reads (taints : Taints) : Expr → SignalSet
  | const _ => ∅
  | localVar name => taints.findD name ∅
  | signal targets => SignalSet.ofList targets
  | element targets index => SignalSet.ofList targets ∪ index.reads taints
  | unary _ operand => operand.reads taints
  | binary _ lhs rhs => lhs.reads taints ∪ rhs.reads taints
  | compare _ lhs rhs => lhs.reads taints ∪ rhs.reads taints
  | cond test thenExpr elseExpr =>
    test.reads taints ∪ (thenExpr.reads taints ∪ elseExpr.reads taints)
  | call _ _ => ∅

end Expr

namespace Access

/-- The signals that the index of an access reads. -/
def indexReads (taints : Taints) : Access → SignalSet
  | direct _ => ∅
  | element _ index => index.reads taints

end Access

namespace Stmt

/-- The signals that the test of a conditional reads; other statements have no test. -/
def guardReads (taints : Taints) : Stmt → SignalSet
  | branch test _ _ _ => test.reads taints
  | _ => ∅

end Stmt

/-! ## The scan -/

/-- What a scan has found so far. -/
structure Scan where
  taints : Taints
  access : BlockAccess
  dependencies : List Dependency
  loops : List LoopSite

namespace Scan

/-- Nothing found yet. -/
def empty : Scan := ⟨∅, ∅, [], []⟩

/-- Note reads that no assignment makes. -/
def observe (scan : Scan) (reads : SignalSet) : Scan :=
  { scan with access := { scan.access with reads := scan.access.reads ∪ reads } }

/-- Note an assignment: everything written depends on everything else that is read. -/
def record (scan : Scan) (reads writes : SignalSet) (span : Span) : Scan :=
  let found := reads.toList.flatMap fun r =>
    (writes.toList.filter (r ≠ ·)).map fun w => ⟨r, w, span⟩
  { scan with
    access := ⟨scan.access.reads ∪ reads, scan.access.writes ∪ writes⟩
    dependencies := scan.dependencies ++ found }

/-- Note a binding.  Inside a conditional it adds to an earlier binding of the name. -/
def bindLocal (scan : Scan) (nested : Bool) (name : String) (taint : SignalSet) : Scan :=
  let scan := scan.observe taint
  { scan with
    taints :=
      if nested then scan.taints.modify name ∅ (· ∪ taint) else scan.taints.insert name taint }

/-- Note a loop. -/
def reject (scan : Scan) (kind : LoopKind) (span : Span) : Scan :=
  { scan with loops := scan.loops ++ [⟨kind, span⟩] }

mutual

/-- Scan a statement under the reads of its guards; `nested` says whether a conditional is
around it. -/
def stmt (guards : SignalSet) (nested : Bool) (scan : Scan) : Stmt → Scan
  | .assign targets value span =>
    let indices := targets.foldl (fun set t => set ∪ t.indexReads scan.taints) ∅
    scan.record (value.reads scan.taints ∪ indices ∪ guards)
      (SignalSet.ofList (targets.flatMap Access.targets)) span
  | .update target _ value span =>
    let own := SignalSet.ofList target.targets
    scan.record (value.reads scan.taints ∪ target.indexReads scan.taints ∪ own ∪ guards) own span
  | .bind name value _ => scan.bindLocal nested name (value.reads scan.taints ∪ guards)
  | .branch test thenArm elseArm _ =>
    let tested := test.reads scan.taints
    let scan := (scan.observe tested).stmts false (guards ∪ tested) true thenArm
    scan.stmts true (guards ∪ tested) true elseArm
  | .eval value _ => scan.observe (value.reads scan.taints)
  | .forLoop _ _ _ span => scan.reject .forLoop span
  | .whileLoop _ _ span => scan.reject .whileLoop span
  | .pass _ => scan

/-- Scan statements in order.  Where `chained` holds, as in an else arm, the test of each
conditional joins the guards of the statements after it. -/
def stmts (chained : Bool) (guards : SignalSet) (nested : Bool) (scan : Scan) : List Stmt → Scan
  | [] => scan
  | s :: rest =>
    let later := if chained then guards ∪ s.guardReads scan.taints else guards
    (scan.stmt guards nested s).stmts chained later nested rest

end

/-- Scan a whole body. -/
def ofBody (body : Body) : Scan := empty.stmts false ∅ false body

end Scan

/-- The accesses of an analysed body and its dependencies in the order of the text. -/
structure BlockAnalysis where
  access : BlockAccess
  dependencies : List Dependency

namespace UpdateBlock

/-- Analyse the body of a block, or list its loops. -/
def analyze {μ : Type} (block : UpdateBlock μ) : Except (List LoopSite) BlockAnalysis :=
  let scan := Scan.ofBody block.body
  if scan.loops.isEmpty then .ok ⟨scan.access, scan.dependencies⟩ else .error scan.loops

end UpdateBlock

end Cyclewise
