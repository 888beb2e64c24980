import Cyclewise.OrderedMap
import Cyclewise.Block.Behavior

/-!
# The component hierarchy

Components form a tree below the top.  Each owns blocks and declares constraints between any live
blocks.  Removing a component kills its subtree: the dead keep their numbers, which are never given
out again, and all look-ups pass over them.  Every successful edit counts up the revision.
-/

namespace Cyclewise

/-- A node of the tree; children and blocks are listed by name. -/
structure Component where
  name : String
  parent : Option ComponentId
  children : OrderedMap String ComponentId
  blocks : OrderedMap String BlockId
  /-- The constraints declared here, in order. -/
  constraints : List Constraint
  alive : Bool

namespace Component

/-- A component without contents. -/
def fresh (name : String) (parent : Option ComponentId) : Component :=
  { name, parent, children := ∅, blocks := ∅, constraints := [], alive := true }

end Component

/-- A registered block. -/
structure BlockEntry (μ : Type) where
  block : UpdateBlock μ
  owner : ComponentId
  alive : Bool

/-- The hierarchy without its tree: every live block with its owner in registration order, and
every constraint in declaration order. -/
structure Aggregate where
  owners : List (BlockId × ComponentId)
  constraints : List Constraint
deriving DecidableEq

namespace Aggregate

/-- The live blocks, in registration order. -/
def blocks (a : Aggregate) : List BlockId := a.owners.map Prod.fst

end Aggregate

/-- The tree of components with everything that was ever registered in it. -/
structure Hierarchy (μ : Type) where
  components : Array Component
  blocks : Array (BlockEntry μ)
  /-- Every constraint with the component that declared it. -/
  constraints : OrderedMap Constraint ComponentId
  /-- The number of edits, below `2 ^ 64`. -/
  revision : Nat
  /-- The aggregate, if it was asked for since the last edit. -/
  cache : Option Aggregate

/-- Why an edit of the hierarchy is refused. -/
inductive HierarchyError where
  /-- The parent, given by path, has a child of this name. -/
  | duplicateComponentName (parent name : String)
  /-- The component, given by path, owns a block of this name. -/
  | duplicateBlockName (component name : String)
  /-- The constraint, given by block names, is declared in `owner`, given by path. -/
  | duplicateConstraint (before after owner : String)
  /-- The block, given by name, would precede itself. -/
  | selfConstraint (block : String)
  | unknownBlock (block : BlockId)
  | unknownComponent (component : ComponentId)
  | cannotRemoveRoot
deriving DecidableEq

namespace HierarchyError

/-- The wording of a refusal. -/
def message : HierarchyError → String
  | duplicateComponentName parent name =>
    s!"component '{parent}' already has a child named '{name}'"
  | duplicateBlockName component name =>
    s!"update block '{name}' already registered in component '{component}'"
  | duplicateConstraint before after owner =>
    s!"constraint '{before}' < '{after}' already declared in '{owner}'"
  | selfConstraint block => s!"update block '{block}' cannot be ordered against itself"
  | unknownBlock block => s!"unknown update block #{block}"
  | unknownComponent component => s!"unknown component #{component}"
  | cannotRemoveRoot => "the top component cannot be removed"

end HierarchyError

namespace Hierarchy

variable {μ : Type}

/-- A top component without contents. -/
def new (top : String) : Hierarchy μ :=
  { components := #[Component.fresh top none], blocks := #[], constraints := ∅, revision := 0,
    cache := none }

/-- The top component. -/
def top : ComponentId := ⟨0⟩

/-- How many components, and how many blocks, have identifiers of their own, the dead ones among
them: identifiers have 32 bits. -/
def capacity : Nat := UInt32.size

/-! ## Look-ups -/

/-- A live component. -/
def component? (h : Hierarchy μ) (c : ComponentId) : Option Component :=
  (h.components[c.index]?).filter Component.alive

/-- A live component, or the refusal of an edit that needs one. -/
def component (h : Hierarchy μ) (c : ComponentId) : Except HierarchyError Component :=
  match h.component? c with
  | some node => .ok node
  | none => .error (.unknownComponent c)

/-- The entry of a live block. -/
def entry? (h : Hierarchy μ) (b : BlockId) : Option (BlockEntry μ) :=
  (h.blocks[b.index]?).filter BlockEntry.alive

/-- The entry of a live block, or the refusal of an edit that needs one. -/
def entry (h : Hierarchy μ) (b : BlockId) : Except HierarchyError (BlockEntry μ) :=
  match h.entry? b with
  | some e => .ok e
  | none => .error (.unknownBlock b)

/-- A live block. -/
def block? (h : Hierarchy μ) (b : BlockId) : Option (UpdateBlock μ) :=
  (h.entry? b).map BlockEntry.block

/-- The owner of a live block. -/
def ownerOf? (h : Hierarchy μ) (b : BlockId) : Option ComponentId :=
  (h.entry? b).map BlockEntry.owner

/-- The child of a live component with a name. -/
def childNamed? (h : Hierarchy μ) (parent : ComponentId) (name : String) : Option ComponentId :=
  (h.component? parent).bind fun node => node.children.find? name

/-- The block of a live component with a name. -/
def blockNamed? (h : Hierarchy μ) (owner : ComponentId) (name : String) : Option BlockId :=
  (h.component? owner).bind fun node => node.blocks.find? name

/-- The number of live blocks. -/
def blockCount (h : Hierarchy μ) : Nat := h.blocks.countP BlockEntry.alive

/-- The names on the way down to a component, if all on the way are live; at most `fuel`. -/
def pathNames (h : Hierarchy μ) : Nat → ComponentId → Option (List String)
  | 0, _ => none
  | fuel + 1, c =>
    (h.component? c).bind fun node =>
      match node.parent with
      | none => some [node.name]
      | some p => (h.pathNames fuel p).map (· ++ [node.name])

/-- The path of a live component: the names from the top down, separated by dots. -/
def path? (h : Hierarchy μ) (c : ComponentId) : Option String :=
  (h.pathNames h.components.size c).map ".".intercalate

/-- The path of a component, or its number if it is dead. -/
def pathOrNumber (h : Hierarchy μ) (c : ComponentId) : String := (h.path? c).getD s!"#{c}"

/-! ## Traversal -/

/-- List the live components on a stack of pending ones that satisfy `p`, each followed by what its
subtree gives; at most `fuel` of the stack are looked at. -/
def visit (h : Hierarchy μ) (p : ComponentId → Component → Bool) :
    Nat → List ComponentId → List ComponentId
  | 0, _ => []
  | _ + 1, [] => []
  | fuel + 1, c :: pending =>
    match h.component? c with
    | none => h.visit p fuel pending
    | some node =>
      let rest := h.visit p fuel (node.children.values ++ pending)
      if p c node then c :: rest else rest

/-- The components that satisfy `p` among a component and everything below it, parents before
children, siblings in order. -/
def collectFrom (h : Hierarchy μ) (p : ComponentId → Component → Bool) (c : ComponentId) :
    List ComponentId :=
  h.visit p h.components.size [c]

/-- A component and everything below it. -/
def subtree (h : Hierarchy μ) (c : ComponentId) : List ComponentId :=
  h.collectFrom (fun _ _ => true) c

/-- The live components that satisfy `p`. -/
def collect (h : Hierarchy μ) (p : ComponentId → Component → Bool) : List ComponentId :=
  h.collectFrom p top

/-! ## The aggregate -/

/-- The live blocks with their owners, by ascending number. -/
def liveOwners (h : Hierarchy μ) : List (BlockId × ComponentId) :=
  h.blocks.toList.zipIdx.filterMap fun (e, i) => if e.alive then some (⟨i⟩, e.owner) else none

/-- Flatten the tree. -/
def flatten (h : Hierarchy μ) : Aggregate := ⟨h.liveOwners, h.constraints.keys⟩

/-- The flattened tree, taken from the cache where that is filled. -/
def flattened (h : Hierarchy μ) : Aggregate := h.cache.getD h.flatten

/-- The flattened tree, and the hierarchy with a filled cache. -/
def aggregate (h : Hierarchy μ) : Aggregate × Hierarchy μ :=
  (h.flattened, { h with cache := some h.flattened })

end Hierarchy

end Cyclewise
