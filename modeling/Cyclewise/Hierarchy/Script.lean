import Cyclewise.Hierarchy.Edit

/-!
# Editing the hierarchy in place

The edits once more, each as a `Script` of checks and changes in the order in which they are done on
one hierarchy.  A refusal ends a script and takes nothing back: what was changed before it stays
changed.
-/

namespace Cyclewise

/-! ## Single changes -/

namespace Component

/-- Enter a constraint, if it is not there. -/
def enter (node : Component) (k : Constraint) : Component :=
  { node with
    constraints := if k ∈ node.constraints then node.constraints else node.constraints ++ [k] }

/-- Take a constraint back. -/
def withdraw (node : Component) (k : Constraint) : Component :=
  { node with constraints := node.constraints.filter (· ≠ k) }

/-- Let a component die. -/
def die (node : Component) : Component := { node with alive := false }

end Component

namespace BlockEntry

/-- Let a block die. -/
def die {μ : Type} (e : BlockEntry μ) : BlockEntry μ := { e with alive := false }

end BlockEntry

namespace Hierarchy

variable {μ : Type}

/-- Change one component. -/
def change (h : Hierarchy μ) (c : ComponentId) (f : Component → Component) : Hierarchy μ :=
  { h with components := h.components.modify c.index f }

/-- Let one block die. -/
def killBlock (h : Hierarchy μ) (b : BlockId) : Hierarchy μ :=
  { h with blocks := h.blocks.modify b.index BlockEntry.die }

/-- Enter a constraint among all and with the component that declares it. -/
def declare (h : Hierarchy μ) (k : Constraint) (owner : ComponentId) : Hierarchy μ :=
  { h with constraints := h.constraints.insert k owner }.change owner (·.enter k)

/-- Take a constraint back from all and from the component that declared it. -/
def retract (h : Hierarchy μ) (k : Constraint) (owner : ComponentId) : Hierarchy μ :=
  { h with constraints := h.constraints.erase k }.change owner (·.withdraw k)

/-- The constraints that go with dead components and blocks, with the components that declared
them. -/
def staleEntries (h : Hierarchy μ) (dead : List ComponentId) (deadBlocks : List BlockId) :
    List (Constraint × ComponentId) :=
  h.constraints.entries.filter fun e => stale dead deadBlocks e.1 e.2

/-! ## Scripts -/

/-- Checks and changes of one hierarchy. -/
abbrev Script (μ : Type) := EStateM HierarchyError (Hierarchy μ)

namespace Script

/-- Add a child component; its name must be new among its siblings. -/
def addComponent (parent : ComponentId) (name : String) : Script μ ComponentId := do
  let h ← get
  let node ← ofExcept (h.component parent)
  if node.children.contains name then
    throw (.duplicateComponentName (h.pathOrNumber parent) name)
  let id : ComponentId := ⟨h.components.size⟩
  modify fun h => { h with components := h.components.push (Component.fresh name parent) }
  modify fun h => h.change parent fun c => { c with children := c.children.insert name id }
  modify touch
  return id

/-- Register a block; its name must be new among the blocks of its owner. -/
def registerBlock (owner : ComponentId) (block : UpdateBlock μ) : Script μ BlockId := do
  let h ← get
  let node ← ofExcept (h.component owner)
  if node.blocks.contains block.name then
    throw (.duplicateBlockName (h.pathOrNumber owner) block.name)
  let id : BlockId := ⟨h.blocks.size⟩
  modify fun h => h.change owner fun c => { c with blocks := c.blocks.insert block.name id }
  modify fun h => { h with blocks := h.blocks.push ⟨block, owner, true⟩ }
  modify touch
  return id

/-- Remove a component with its subtree: first the components and their blocks die, then the
constraints are taken back, then the parent forgets the component. -/
def removeComponent (c : ComponentId) : Script μ Unit := do
  if c = top then throw .cannotRemoveRoot
  let h ← get
  let node ← ofExcept (h.component c)
  let dead := h.subtree c
  let deadBlocks := h.blocksOf dead
  dead.forM fun d => modify (change · d Component.die)
  deadBlocks.forM fun b => modify (killBlock · b)
  (h.staleEntries dead deadBlocks).forM fun e => modify (retract · e.1 e.2)
  if let some parent := node.parent then
    modify fun h => h.change parent fun p => { p with children := p.children.erase node.name }
  modify touch

/-- Remove the child of a component with a name. -/
def removeComponentNamed (parent : ComponentId) (name : String) : Script μ Unit := do
  let h ← get
  match h.childNamed? parent name with
  | some c => removeComponent c
  | none => throw (.unknownComponent parent)

/-- Declare constraints in a component.  All are checked before the first one is entered; an empty
list is no edit. -/
def addConstraints (owner : ComponentId) (pairs : List Constraint) : Script μ Unit := do
  let h ← get
  let _ ← ofExcept (h.component owner)
  let accepted ← ofExcept (h.checkConstraints owner [] pairs)
  if accepted.isEmpty then return
  accepted.forM fun k => modify (declare · k owner)
  modify touch

/-- Declare one constraint in a component. -/
def addConstraint (owner : ComponentId) (before after : BlockId) : Script μ Unit :=
  addConstraints owner [⟨before, after⟩]

end Script

/-! ## Requests -/

/-- A request for an edit. -/
inductive Request (μ : Type) where
  | addComponent (parent : ComponentId) (name : String)
  | removeComponent (c : ComponentId)
  | removeComponentNamed (parent : ComponentId) (name : String)
  | registerBlock (owner : ComponentId) (block : UpdateBlock μ)
  | addConstraint (owner : ComponentId) (before after : BlockId)
  | addConstraints (owner : ComponentId) (pairs : List Constraint)

/-- The identifier that an edit gives out, if any. -/
inductive Grant where
  | component (id : ComponentId)
  | block (id : BlockId)
  | nothing
deriving DecidableEq

namespace Request

/-- The edit in place. -/
def script : Request μ → Script μ Grant
  | addComponent parent name => Grant.component <$> Script.addComponent parent name
  | removeComponent c => (fun _ => .nothing) <$> Script.removeComponent c
  | removeComponentNamed parent name =>
    (fun _ => .nothing) <$> Script.removeComponentNamed parent name
  | registerBlock owner block => Grant.block <$> Script.registerBlock owner block
  | addConstraint owner before after =>
    (fun _ => .nothing) <$> Script.addConstraint owner before after
  | addConstraints owner pairs => (fun _ => .nothing) <$> Script.addConstraints owner pairs

/-- The edit as a function of the hierarchy. -/
def edit (h : Hierarchy μ) : Request μ → Except HierarchyError (Grant × Hierarchy μ)
  | addComponent parent name => Prod.map .component id <$> h.addComponent parent name
  | removeComponent c => Prod.mk .nothing <$> h.removeComponent c
  | removeComponentNamed parent name => Prod.mk .nothing <$> h.removeComponentNamed parent name
  | registerBlock owner block => Prod.map .block id <$> h.registerBlock owner block
  | addConstraint owner before after => Prod.mk .nothing <$> h.addConstraint owner before after
  | addConstraints owner pairs => Prod.mk .nothing <$> h.addConstraints owner pairs

end Request

end Hierarchy

end Cyclewise
