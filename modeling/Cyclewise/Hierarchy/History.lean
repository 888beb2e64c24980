import Cyclewise.Hierarchy.Script

/-!
# Histories of a hierarchy

An `Operation` is one of the things that can be done with a hierarchy: an edit in place, a look-up,
or taking the aggregate, which fills the cache.  The states that a hierarchy can get into are those
that operations lead to from a fresh one.
-/

namespace Cyclewise

namespace Hierarchy

/-- A look-up. -/
inductive Question where
  | revision
  | component (c : ComponentId)
  | path (c : ComponentId)
  | childNamed (parent : ComponentId) (name : String)
  | block (b : BlockId)
  | blockNamed (owner : ComponentId) (name : String)
  | owner (b : BlockId)
  | collect (p : ComponentId → Component → Bool)
  | blockCount

/-- What a look-up finds. -/
inductive Answer (μ : Type) where
  | number (n : Nat)
  | component (node : Option Component)
  | path (path : Option String)
  | componentId (c : Option ComponentId)
  | block (block : Option (UpdateBlock μ))
  | blockId (b : Option BlockId)
  | components (cs : List ComponentId)

/-- One thing done with a hierarchy. -/
inductive Operation (μ : Type) where
  | request (r : Request μ)
  | ask (q : Question)
  | aggregate

/-- What an operation gives back. -/
inductive Reply (μ : Type) where
  | result (result : Except HierarchyError Grant)
  | answer (a : Answer μ)
  | aggregate (a : Aggregate)

variable {μ : Type}

namespace Operation

/-- Whether an operation takes the aggregate. -/
def isAggregate : Operation μ → Bool
  | aggregate => true
  | _ => false

end Operation

namespace Reply

/-- Whether a reply is an aggregate. -/
def isAggregate : Reply μ → Bool
  | aggregate _ => true
  | _ => false

end Reply

/-- Look something up. -/
def answer (h : Hierarchy μ) : Question → Answer μ
  | .revision => .number h.revision
  | .component c => .component (h.component? c)
  | .path c => .path (h.path? c)
  | .childNamed parent name => .componentId (h.childNamed? parent name)
  | .block b => .block (h.block? b)
  | .blockNamed owner name => .blockId (h.blockNamed? owner name)
  | .owner b => .componentId (h.ownerOf? b)
  | .collect p => .components (h.collect p)
  | .blockCount => .number h.blockCount

/-- Do an edit in place. -/
def request (h : Hierarchy μ) (r : Request μ) : Except HierarchyError Grant × Hierarchy μ :=
  match r.script.run h with
  | .ok grant h => (.ok grant, h)
  | .error e h => (.error e, h)

/-- Do one thing. -/
def perform (h : Hierarchy μ) : Operation μ → Reply μ × Hierarchy μ
  | .request r => (.result (h.request r).1, (h.request r).2)
  | .ask q => (.answer (h.answer q), h)
  | .aggregate => (.aggregate h.aggregate.1, h.aggregate.2)

/-- Do things in order. -/
def performAll (h : Hierarchy μ) : List (Operation μ) → List (Reply μ) × Hierarchy μ
  | [] => ([], h)
  | op :: rest =>
    let (reply, h) := h.perform op
    let (replies, h) := h.performAll rest
    (reply :: replies, h)

/-- The hierarchy that operations lead to from a fresh one. -/
def after (top : String) (ops : List (Operation μ)) : Hierarchy μ := ((new top).performAll ops).2

end Hierarchy

end Cyclewise
