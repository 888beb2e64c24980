import Cyclewise.Id
import Cyclewise.OrderedMap

/-!
# The signal table

Signals are declared one after the other and never removed; the number of a signal is its place
in the table, and its path is unique, so that an index finds the signal of a path.  A signal may be
declared as part of another one (an element, a slice, a field): then its path extends the path of
the whole, and it inherits kind and owner.  The parts-of relation is a forest in which every part
has a greater number than its whole.
-/

namespace Cyclewise

/-- The role of a signal in its owning component. -/
inductive SignalKind where
  /-- Driven from outside the owning component. -/
  | inPort
  /-- Observable from outside the owning component. -/
  | outPort
  /-- Internal. -/
  | wire
  /-- Holds a constant, and drives whatever net it lands in with it. -/
  | const (value : UInt64)
deriving DecidableEq

namespace SignalKind

/-- Whether the signal is a port. -/
def isPort : SignalKind → Bool
  | inPort | outPort => true
  | wire | const _ => false

/-- The value of a constant. -/
def constValue? : SignalKind → Option UInt64
  | const value => some value
  | inPort | outPort | wire => none

end SignalKind

/-- A declared signal.  The type name is carried along and never interpreted. -/
structure SignalDef where
  path : String
  kind : SignalKind
  typeName : String
  owner : ComponentId
  /-- The whole that this signal is a part of. -/
  parent : Option SignalId

namespace SignalDef

/-- Whether the signal is part of no other one. -/
def isTopLevel (d : SignalDef) : Bool := d.parent.isNone

end SignalDef

/-- Why a declaration is refused. -/
inductive SignalError where
  /-- The path is taken. -/
  | duplicatePath (path : String)
  /-- The whole of a part is not declared. -/
  | unknownSignal (signal : SignalId)
  /-- There is no number left. -/
  | tableFull
deriving DecidableEq

namespace SignalError

/-- The wording of a refusal. -/
def message : SignalError → String
  | duplicatePath path => s!"signal '{path}' declared twice"
  | unknownSignal signal => s!"unknown signal {signal}"
  | tableFull => "signal table exceeds u32::MAX entries"

end SignalError

/-- Declarations by number, the numbers by path, and for each signal the numbers of its direct
parts. -/
structure SignalTable where
  defs : Array SignalDef
  byPath : OrderedMap String SignalId
  parts : Array (List SignalId)
deriving Inhabited

namespace SignalTable

/-- The table without signals. -/
def empty : SignalTable := ⟨#[], ∅, #[]⟩

instance : EmptyCollection SignalTable := ⟨empty⟩

/-- How many signals a table can hold: their numbers have 32 bits. -/
def capacity : Nat := UInt32.size

/-- The number of declared signals. -/
def size (t : SignalTable) : Nat := t.defs.size

/-- Whether no signal is declared. -/
def isEmpty (t : SignalTable) : Bool := t.defs.isEmpty

/-- The declaration of a signal. -/
def get? (t : SignalTable) (s : SignalId) : Option SignalDef := t.defs[s.index]?

/-- Whether a signal is declared. -/
def contains (t : SignalTable) (s : SignalId) : Bool := decide (s.index < t.size)

/-- The signal with a path. -/
def lookup? (t : SignalTable) (path : String) : Option SignalId := t.byPath.find? path

/-- The path of a signal; an undeclared one has a placeholder. -/
def path (t : SignalTable) (s : SignalId) : String :=
  match t.get? s with
  | some d => d.path
  | none => "<unknown>"

/-- All signals, ascending. -/
def ids (t : SignalTable) : List SignalId := (List.range t.size).map SignalId.mk

/-- All signals with their declarations, ascending. -/
def toList (t : SignalTable) : List (SignalId × SignalDef) :=
  t.defs.toList.zipIdx.map fun (d, i) => (⟨i⟩, d)

/-! ## Declaring -/

/-- Append a declaration: paths stay unique, and the whole learns of its new part. -/
def insert (t : SignalTable) (d : SignalDef) : Except SignalError (SignalId × SignalTable) :=
  if t.byPath.contains d.path then .error (.duplicatePath d.path)
  else if capacity ≤ t.size then .error .tableFull
  else
    let id : SignalId := ⟨t.size⟩
    let parts :=
      match d.parent with
      | some p => t.parts.modify p.index (· ++ [id])
      | none => t.parts
    .ok (id, ⟨t.defs.push d, t.byPath.insert d.path id, parts.push []⟩)

/-- Declare a signal that is part of no other one. -/
def declare (t : SignalTable) (path : String) (kind : SignalKind) (typeName : String)
    (owner : ComponentId) : Except SignalError (SignalId × SignalTable) :=
  t.insert { path, kind, typeName, owner, parent := none }

/-- Declare a part of `parent`, whose path is followed by `suffix` as it stands. -/
def declareChild (t : SignalTable) (parent : SignalId) (suffix typeName : String) :
    Except SignalError (SignalId × SignalTable) :=
  match t.get? parent with
  | none => .error (.unknownSignal parent)
  | some whole =>
    t.insert { path := whole.path ++ suffix, kind := whole.kind, typeName, owner := whole.owner,
               parent := some parent }

/-! ## The forest of parts -/

/-- The whole that a signal is a direct part of. -/
def parent? (t : SignalTable) (s : SignalId) : Option SignalId :=
  (t.get? s).bind SignalDef.parent

/-- The direct parts of a signal, in the order of their declaration. -/
def children (t : SignalTable) (s : SignalId) : List SignalId := t.parts.getD s.index []

/-- Follow at most `fuel` links upwards. -/
def climb (t : SignalTable) : Nat → Option SignalId → List SignalId
  | 0, _ => []
  | _ + 1, none => []
  | fuel + 1, some s => s :: t.climb fuel (t.parent? s)

/-- The wholes around a signal, nearest first.  A way up has fewer links than the table signals. -/
def ancestors (t : SignalTable) (s : SignalId) : List SignalId := t.climb t.size (t.parent? s)

/-- List the signals on a stack of pending ones, each followed by its parts; at most `fuel`. -/
def unfold (t : SignalTable) : Nat → List SignalId → List SignalId
  | 0, _ => []
  | _ + 1, [] => []
  | fuel + 1, s :: pending => s :: t.unfold fuel (t.children s ++ pending)

/-- The parts of a signal, direct and indirect, each before its own parts. -/
def descendants (t : SignalTable) (s : SignalId) : List SignalId := t.unfold t.size (t.children s)

end SignalTable

end Cyclewise
