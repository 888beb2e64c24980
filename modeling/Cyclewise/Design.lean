import Cyclewise.Config
import Cyclewise.Hierarchy.Edit
import Cyclewise.Signal.Table
import Cyclewise.Net.Map
import Cyclewise.Text.Quoted

/-!
# Designs

A design is a hierarchy of components, a table of signals and the connections between them.  An
`Edit` is one of the changes that can be made to it; a refused edit changes nothing.  The revision
of a design counts its successful edits.
-/

namespace Cyclewise

/-- Everything that elaboration starts from. -/
structure Design (μ : Type) where
  hierarchy : Hierarchy μ
  signals : SignalTable
  connections : List Connection

/-- One change of a design. -/
inductive Edit (μ : Type) where
  | addComponent (parent : ComponentId) (name : String)
  | removeComponent (component : ComponentId)
  | removeComponentNamed (parent : ComponentId) (name : String)
  | registerBlock (owner : ComponentId) (block : UpdateBlock μ)
  /-- Register a live block once more, under the same name, with a shared behavior. -/
  | registerCopy (owner : ComponentId) (block : BlockId)
  | addConstraint (owner : ComponentId) (before after : BlockId)
  | addConstraints (owner : ComponentId) (constraints : List Constraint)
  | declare (path : String) (kind : SignalKind) (typeName : String) (owner : ComponentId)
  | declareChild (parent : SignalId) (suffix typeName : String)
  | connect (a b : SignalId)

/-- What a successful edit has brought about. -/
inductive EditResult where
  | component (id : ComponentId)
  | block (id : BlockId)
  | signal (id : SignalId)
  | done
deriving DecidableEq

/-- Why an edit is refused. -/
inductive EditError where
  | hierarchy (e : HierarchyError)
  | signal (e : SignalError)
deriving DecidableEq

namespace EditError

/-- The wording of a refusal. -/
def message : EditError → String
  | hierarchy e => e.message
  | signal e => e.message

end EditError

namespace UpdateBlock

/-- A short description. -/
def describe {μ : Type} (b : UpdateBlock μ) : String :=
  "UpdateBlock \x7b name: " ++ Text.quoted b.name ++ s!", stmts: {b.body.length}, .. " ++ "\x7d"

end UpdateBlock

namespace Design

variable {μ : Type}

/-- A design with a top component and nothing else. -/
def new (top : String) : Design μ := ⟨Hierarchy.new top, ∅, []⟩

/-- The number of successful edits: those of the hierarchy, the declarations, the connections. -/
def revision (d : Design μ) : Nat :=
  d.hierarchy.revision + d.signals.size + d.connections.length

/-- Every connection must join declared signals. -/
def validate (d : Design μ) : Except ConfigError Unit :=
  match (d.connections.flatMap fun c => [c.a, c.b]).find? fun s => !d.signals.contains s with
  | some s => .error (.unknownEndpoint s)
  | none => .ok ()

/-- Join two signals; they are checked by `validate`. -/
def connect (d : Design μ) (a b : SignalId) : Design μ :=
  { d with connections := d.connections ++ [⟨a, b⟩] }

/-! ## Edits -/

/-- The design after an edit of its hierarchy. -/
def withHierarchy (d : Design μ) (edited : Except HierarchyError (Hierarchy μ)) :
    Except EditError (EditResult × Design μ) :=
  match edited with
  | .ok hierarchy => .ok (.done, { d with hierarchy })
  | .error e => .error (.hierarchy e)

/-- The design after a component was added. -/
def withComponent (d : Design μ) (edited : Except HierarchyError (ComponentId × Hierarchy μ)) :
    Except EditError (EditResult × Design μ) :=
  match edited with
  | .ok (id, hierarchy) => .ok (.component id, { d with hierarchy })
  | .error e => .error (.hierarchy e)

/-- The design after a block was registered. -/
def withBlock (d : Design μ) (edited : Except HierarchyError (BlockId × Hierarchy μ)) :
    Except EditError (EditResult × Design μ) :=
  match edited with
  | .ok (id, hierarchy) => .ok (.block id, { d with hierarchy })
  | .error e => .error (.hierarchy e)

/-- The design after a signal was declared. -/
def withSignal (d : Design μ) (edited : Except SignalError (SignalId × SignalTable)) :
    Except EditError (EditResult × Design μ) :=
  match edited with
  | .ok (id, signals) => .ok (.signal id, { d with signals })
  | .error e => .error (.signal e)

/-- Make one change. -/
def apply (d : Design μ) : Edit μ → Except EditError (EditResult × Design μ)
  | .addComponent parent name => d.withComponent (d.hierarchy.addComponent parent name)
  | .removeComponent c => d.withHierarchy (d.hierarchy.removeComponent c)
  | .removeComponentNamed parent name =>
    d.withHierarchy (d.hierarchy.removeComponentNamed parent name)
  | .registerBlock owner block => d.withBlock (d.hierarchy.registerBlock owner block)
  | .registerCopy owner b =>
    match d.hierarchy.entry b with
    | .ok e => d.withBlock (d.hierarchy.registerBlock owner e.block)
    | .error e => .error (.hierarchy e)
  | .addConstraint owner before after =>
    d.withHierarchy (d.hierarchy.addConstraint owner before after)
  | .addConstraints owner constraints =>
    d.withHierarchy (d.hierarchy.addConstraints owner constraints)
  | .declare path kind typeName owner =>
    d.withSignal (d.signals.declare path kind typeName owner)
  | .declareChild parent suffix typeName =>
    d.withSignal (d.signals.declareChild parent suffix typeName)
  | .connect a b => .ok (.done, d.connect a b)

/-- What became of a list of edits: the results of those that succeeded, the design that they led
to, and the refusal at which they ended. -/
structure EditLog (μ : Type) where
  results : List EditResult
  design : Design μ
  refusal : Option EditError

/-- Make changes in order, up to the first that is refused. -/
def applyAll (d : Design μ) : List (Edit μ) → EditLog μ
  | [] => ⟨[], d, none⟩
  | e :: rest =>
    match d.apply e with
    | .error refusal => ⟨[], d, some refusal⟩
    | .ok (result, d) =>
      let log := d.applyAll rest
      { log with results := result :: log.results }

/-- The design that edits make of an empty one. -/
def ofEdits (top : String) (edits : List (Edit μ)) : Design μ := ((new top).applyAll edits).design

end Design

end Cyclewise
