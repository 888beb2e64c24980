import Cyclewise.Hierarchy.Basic

/-!
# Editing the hierarchy

Each edit is checked in full before anything changes: it gives the edited hierarchy, one revision
later and with an empty cache, or the reason why it is refused.
-/

namespace Cyclewise

namespace Hierarchy

variable {μ : Type}

/-- Count an edit. -/
def touch (h : Hierarchy μ) : Hierarchy μ := { h with revision := h.revision + 1, cache := none }

/-- Add a child component; its name must be new among its siblings.  Its identifier is the number of
components so far, which must be below `capacity`. -/
def addComponent (h : Hierarchy μ) (parent : ComponentId) (name : String) :
    Except HierarchyError (ComponentId × Hierarchy μ) := do
  let node ← h.component parent
  if node.children.contains name then
    throw (.duplicateComponentName (h.pathOrNumber parent) name)
  let id : ComponentId := ⟨h.components.size⟩
  let components := (h.components.push (Component.fresh name parent)).modify parent.index fun c =>
    { c with children := c.children.insert name id }
  return (id, { h with components }.touch)

/-- Register a block; its name must be new among the blocks of its owner.  Its identifier is the
number of blocks so far, which must be below `capacity`. -/
def registerBlock (h : Hierarchy μ) (owner : ComponentId) (block : UpdateBlock μ) :
    Except HierarchyError (BlockId × Hierarchy μ) := do
  let node ← h.component owner
  if node.blocks.contains block.name then
    throw (.duplicateBlockName (h.pathOrNumber owner) block.name)
  let id : BlockId := ⟨h.blocks.size⟩
  let components := h.components.modify owner.index fun c =>
    { c with blocks := c.blocks.insert block.name id }
  return (id, { h with components, blocks := h.blocks.push ⟨block, owner, true⟩ }.touch)

/-! ## Removing -/

/-- The blocks of some components. -/
def blocksOf (h : Hierarchy μ) (cs : List ComponentId) : List BlockId :=
  cs.flatMap fun c => ((h.component? c).map (·.blocks.values)).getD []

/-- Whether a constraint goes with dead components and blocks: it was declared by one of the
components or mentions one of the blocks. -/
def stale (dead : List ComponentId) (deadBlocks : List BlockId) (k : Constraint)
    (owner : ComponentId) : Bool :=
  decide (owner ∈ dead ∨ k.before ∈ deadBlocks ∨ k.after ∈ deadBlocks)

/-- Remove a component with its subtree.  Gone with it are the blocks of the subtree, the
constraints declared in it, and the constraints declared elsewhere that mention one of these
blocks. -/
def removeComponent (h : Hierarchy μ) (c : ComponentId) :
    Except HierarchyError (Hierarchy μ) := do
  if c = top then throw .cannotRemoveRoot
  let node ← h.component c
  let dead := h.subtree c
  let deadBlocks := h.blocksOf dead
  let components := h.components.mapIdx fun i d =>
    { d with
      alive := d.alive && decide (⟨i⟩ ∉ dead)
      children := if node.parent = some ⟨i⟩ then d.children.erase node.name else d.children
      constraints := d.constraints.filter fun k => !stale dead deadBlocks k ⟨i⟩ }
  let blocks := h.blocks.mapIdx fun i e => { e with alive := e.alive && decide (⟨i⟩ ∉ deadBlocks) }
  let constraints := h.constraints.filter fun k owner => !stale dead deadBlocks k owner
  return { h with components, blocks, constraints }.touch

/-- Remove the child of a component with a name. -/
def removeComponentNamed (h : Hierarchy μ) (parent : ComponentId) (name : String) :
    Except HierarchyError (Hierarchy μ) :=
  match h.childNamed? parent name with
  | some c => h.removeComponent c
  | none => .error (.unknownComponent parent)

/-! ## Constraints -/

/-- The name of a block, dead or alive. -/
def nameOrNumber (h : Hierarchy μ) (b : BlockId) : String :=
  match h.blocks[b.index]? with
  | some e => e.block.name
  | none => s!"#{b}"

/-- The refusal of a constraint that `owner` already has. -/
def duplicate (h : Hierarchy μ) (k : Constraint) (owner : ComponentId) : HierarchyError :=
  .duplicateConstraint (h.nameOrNumber k.before) (h.nameOrNumber k.after) (h.pathOrNumber owner)

/-- A constraint must relate two different live blocks and be new to the whole hierarchy. -/
def checkConstraint (h : Hierarchy μ) (k : Constraint) : Except HierarchyError Unit := do
  let before ← h.entry k.before
  let _ ← h.entry k.after
  if k.before = k.after then throw (.selfConstraint before.block.name)
  match h.constraints.find? k with
  | some owner => throw (h.duplicate k owner)
  | none => return ()

/-- Check constraints one by one against the hierarchy and those before them. -/
def checkConstraints (h : Hierarchy μ) (owner : ComponentId) (accepted : List Constraint) :
    List Constraint → Except HierarchyError (List Constraint)
  | [] => return accepted
  | k :: rest => do
    h.checkConstraint k
    if k ∈ accepted then throw (h.duplicate k owner)
    h.checkConstraints owner (accepted ++ [k]) rest

/-- Declare constraints in a component, all or none.  An empty list is no edit. -/
def addConstraints (h : Hierarchy μ) (owner : ComponentId) (pairs : List Constraint) :
    Except HierarchyError (Hierarchy μ) := do
  let _ ← h.component owner
  let accepted ← h.checkConstraints owner [] pairs
  if accepted.isEmpty then return h
  let components := h.components.modify owner.index fun c =>
    { c with constraints := c.constraints ++ accepted }
  let constraints := accepted.foldl (fun m k => m.insert k owner) h.constraints
  return { h with components, constraints }.touch

/-- Declare one constraint in a component. -/
def addConstraint (h : Hierarchy μ) (owner : ComponentId) (before after : BlockId) :
    Except HierarchyError (Hierarchy μ) :=
  h.addConstraints owner [⟨before, after⟩]

end Hierarchy

end Cyclewise
