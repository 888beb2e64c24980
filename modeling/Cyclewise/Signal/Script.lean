import Cyclewise.Signal.Table

/-!
# Declaring in place

The declarations once more, each as a `Script` of checks and changes in the order in which they are
done on one table.  A refusal ends a script and takes nothing back: what was changed before it stays
changed.  The tables that a design can hold are those that declarations lead to from the empty one.
-/

namespace Cyclewise

namespace SignalTable

/-- A call that declares a signal. -/
inductive Declaration where
  | declare (path : String) (kind : SignalKind) (typeName : String) (owner : ComponentId)
  | declareChild (parent : SignalId) (suffix typeName : String)

/-- Checks and changes of one table. -/
abbrev Script := EStateM SignalError SignalTable

namespace Script

/-- Append a declaration: first the whole learns of its new part, then the index of the path, then
the definition is entered with an empty list of parts. -/
def insert (d : SignalDef) : Script SignalId := do
  let t ← get
  if t.byPath.contains d.path then throw (.duplicatePath d.path)
  if capacity ≤ t.size then throw .tableFull
  let id : SignalId := ⟨t.size⟩
  if let some parent := d.parent then
    modify fun t => { t with parts := t.parts.modify parent.index (· ++ [id]) }
  modify fun t => { t with byPath := t.byPath.insert d.path id }
  modify fun t => { t with defs := t.defs.push d }
  modify fun t => { t with parts := t.parts.push [] }
  return id

/-- Declare a signal that is part of no other one. -/
def declare (path : String) (kind : SignalKind) (typeName : String) (owner : ComponentId) :
    Script SignalId :=
  insert { path, kind, typeName, owner, parent := none }

/-- Declare a part of `parent`, whose path is followed by `suffix` as it stands. -/
def declareChild (parent : SignalId) (suffix typeName : String) : Script SignalId := do
  let t ← get
  match t.get? parent with
  | none => throw (.unknownSignal parent)
  | some whole =>
    insert { path := whole.path ++ suffix, kind := whole.kind, typeName, owner := whole.owner,
             parent := some parent }

end Script

/-- A declaration in place. -/
def Declaration.script : Declaration → Script SignalId
  | declare path kind typeName owner => Script.declare path kind typeName owner
  | declareChild parent suffix typeName => Script.declareChild parent suffix typeName

/-- A declaration as a function of the table. -/
def Declaration.edit (t : SignalTable) :
    Declaration → Except SignalError (SignalId × SignalTable)
  | declare path kind typeName owner => t.declare path kind typeName owner
  | declareChild parent suffix typeName => t.declareChild parent suffix typeName

/-- Do a declaration in place. -/
def perform (t : SignalTable) (d : Declaration) : Except SignalError SignalId × SignalTable :=
  match d.script.run t with
  | .ok s t => (.ok s, t)
  | .error e t => (.error e, t)

/-- The table that declarations lead to from the empty one. -/
def after (ds : List Declaration) : SignalTable := ds.foldl (fun t d => (t.perform d).2) ∅

end SignalTable

end Cyclewise
