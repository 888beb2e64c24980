import Cyclewise.Proofs.Hierarchy.Removal
import Cyclewise.Proofs.Numbers

/-!
# Hierarchies after any calls

A `Session` is a hierarchy with the identifiers handed out for it.  Each call keeps the records in
agreement and hands out the next number if any, so that after any calls, refused ones among them, the
records of the hierarchy are consistent and no identifier was handed out twice
(`Session.run_consistent`).  A call hands out at most one identifier (`Session.length_call_le`), so
there are enough for fewer than `capacity` calls.
-/

namespace Cyclewise

namespace Hierarchy

variable {μ : Type} {h h' : Hierarchy μ}

/-- The records of a hierarchy as its look-ups show them. -/
structure Consistent (h : Hierarchy μ) : Prop where
  top_live : (h.component? top).isSome
  /-- A live component lists the live components with it as parent, under their names. -/
  children : ∀ p node, h.component? p = some node → ∀ name c,
    (name, c) ∈ node.children.entries ↔ h.IsChild p name c
  /-- A registered block lives as long as its owner. -/
  block_live : ∀ (b : BlockId) (e : BlockEntry μ), h.blocks[b.index]? = some e →
    ((h.block? b).isSome ↔ (h.component? e.owner).isSome)
  /-- A live component lists the live blocks with it as owner, under their names. -/
  blocks : ∀ c node, h.component? c = some node → ∀ name b,
    (name, b) ∈ node.blocks.entries ↔ h.IsOwned c name b
  path : ∀ c, (h.path? c).isSome ↔ (h.component? c).isSome
  related : ∀ k ∈ h.constraints.keys,
    k.before ≠ k.after ∧ (h.block? k.before).isSome ∧ (h.block? k.after).isSome
  holder : ∀ k ∈ h.constraints.keys,
    ∃! c, ∃ node, h.component? c = some node ∧ k ∈ node.constraints
  /-- A live component holds its part of the map of all constraints, in the order of the map. -/
  declared : ∀ c node, h.component? c = some node →
    node.constraints = (h.constraints.entries.filter fun e => e.2 = c).map Prod.fst

/-! ## The invariant holds -/

theorem invariant_new (name : String) : (new name : Hierarchy μ).Invariant := by
  have hcomponent : ∀ {c node}, (new name : Hierarchy μ).component? c = some node →
      c = top ∧ node = Component.fresh name none := by
    intro c node hc
    have hlt := lt_size_of_component? hc
    have hindex : c.index = 0 := by
      have hsize : (new name : Hierarchy μ).components.size = 1 := rfl
      omega
    obtain ⟨index⟩ := c
    obtain rfl : index = 0 := hindex
    exact ⟨rfl, (Option.some.inj hc).symm⟩
  have hentry : ∀ b, Hierarchy.entry? (new name : Hierarchy μ) b = none := by
    intro b
    unfold entry?
    simp [new]
  have hchild : ∀ p n c, ¬ (new name : Hierarchy μ).IsChild p n c := by
    rintro p n c ⟨child, hc, hparent, -⟩
    obtain ⟨-, rfl⟩ := hcomponent hc
    cases hparent
  refine ⟨⟨⟨_, rfl, rfl⟩, ?_, ?_⟩, ⟨?_, ?_, ?_⟩, ⟨?_, ?_⟩⟩
  · intro c node hc hne
    exact absurd (hcomponent hc).1 hne
  · intro p node hp n c
    obtain ⟨-, rfl⟩ := hcomponent hp
    simp only [hchild, iff_false]
    intro hd
    cases hd
  · intro c node hc n b
    obtain ⟨-, rfl⟩ := hcomponent hc
    simp only [IsOwned, hentry]
    constructor
    · intro hd
      cases hd
    · rintro ⟨e, he, -⟩
      cases he
  · intro i e he
    simp [new] at he
  · intro i e he
    simp [new] at he
  · intro k owner hk
    cases hk
  · intro c node hc
    obtain ⟨-, rfl⟩ := hcomponent hc
    rfl

theorem Invariant.aggregate (hh : h.Invariant) : h.aggregate.2.Invariant :=
  ⟨⟨hh.tree.top_live, hh.tree.parent, hh.tree.children⟩,
    ⟨hh.blocks.blocks, hh.blocks.owner_lt, hh.blocks.alive⟩,
    ⟨hh.constraints.related, hh.constraints.declared⟩⟩

/-- The records of a hierarchy that edits lead to agree. -/
theorem Built.invariant (hh : h.Built) : h.Invariant := by
  induction hh with
  | new name => exact invariant_new name
  | addComponent _ he ih => exact ih.addComponent he
  | registerBlock _ he ih => exact ih.registerBlock he
  | removeComponent _ he ih => exact ih.removeComponent he rfl
  | addConstraints _ he ih => exact ih.addConstraints he
  | aggregate _ ih => exact ih.aggregate

/-! ## What the records show -/

/-- The path of a live component is found: each step up leads to a live component with a smaller
number. -/
theorem TreeAgrees.isSome_pathNames (ht : h.TreeAgrees) {fuel : Nat} {c : ComponentId}
    (hc : (h.component? c).isSome) (hfuel : c.index < fuel) : (h.pathNames fuel c).isSome := by
  induction fuel generalizing c with
  | zero => omega
  | succ fuel ih =>
    obtain ⟨node, hnode⟩ := Option.isSome_iff_exists.1 hc
    rw [pathNames, hnode, Option.bind_some]
    cases hparent : node.parent with
    | none => rfl
    | some p =>
      have hchild : h.IsChild p node.name c := ⟨node, hnode, hparent, rfl⟩
      obtain ⟨hlt, hlive⟩ := ht.lt_of_isChild hchild
      show ((h.pathNames fuel p).map _).isSome
      rw [Option.isSome_map]
      exact ih hlive (by omega)

theorem live_of_pathNames {fuel : Nat} {c : ComponentId} (hc : (h.pathNames fuel c).isSome) :
    (h.component? c).isSome := by
  cases fuel with
  | zero => cases hc
  | succ fuel =>
    cases hnode : h.component? c with
    | none =>
      rw [pathNames, hnode] at hc
      cases hc
    | some node => rfl

theorem Invariant.consistent (hh : h.Invariant) : h.Consistent where
  top_live := by
    obtain ⟨node, hnode, -⟩ := hh.tree.top_live
    rw [hnode]
    rfl
  children := by
    intro p node hp name c
    rw [OrderedMap.mem_entries_iff, hh.tree.children hp]
  block_live := by
    intro b e he
    rw [← hh.blocks.alive he]
    unfold block? entry?
    rw [Option.isSome_map, he, Option.filter_some]
    cases e.alive <;> simp
  blocks := by
    intro c node hc name b
    rw [OrderedMap.mem_entries_iff, hh.blocks.blocks hc]
  path := by
    intro c
    unfold path?
    rw [Option.isSome_map]
    constructor
    · exact live_of_pathNames
    · intro hc
      obtain ⟨node, hnode⟩ := Option.isSome_iff_exists.1 hc
      exact hh.tree.isSome_pathNames hc (lt_size_of_component? hnode)
  related := by
    intro k hk
    obtain ⟨owner, howner⟩ := OrderedMap.mem_keys_iff.1 hk
    obtain ⟨hne, hbefore, hafter, -⟩ := hh.constraints.related howner
    unfold block?
    rw [Option.isSome_map, Option.isSome_map]
    exact ⟨hne, hbefore, hafter⟩
  holder := by
    intro k hk
    obtain ⟨owner, howner⟩ := OrderedMap.mem_keys_iff.1 hk
    have hmem : ∀ c node, h.component? c = some node → (k ∈ node.constraints ↔ c = owner) := by
      intro c node hc
      rw [hh.constraints.declared hc, List.mem_map]
      constructor
      · rintro ⟨⟨k, c'⟩, hentry, rfl⟩
        obtain ⟨hentry, heq⟩ := List.mem_filter.1 hentry
        rw [OrderedMap.mem_entries_iff, howner] at hentry
        rw [← of_decide_eq_true heq]
        exact (Option.some.inj hentry).symm
      · rintro rfl
        refine ⟨(k, c), List.mem_filter.2 ⟨OrderedMap.mem_entries_iff.2 howner, ?_⟩, rfl⟩
        exact decide_eq_true rfl
    obtain ⟨node, hnode⟩ := Option.isSome_iff_exists.1 (hh.constraints.related howner).2.2.2
    refine ⟨owner, ⟨node, hnode, (hmem owner node hnode).2 rfl⟩, ?_⟩
    rintro c ⟨node', hnode', hk'⟩
    exact (hmem c node' hnode').1 hk'
  declared := fun c node hc => hh.constraints.declared hc

/-! ## Calls -/

/-- A call that edits a hierarchy. -/
inductive Call (μ : Type) where
  | addComponent (parent : ComponentId) (name : String)
  | removeComponent (c : ComponentId)
  | removeComponentNamed (parent : ComponentId) (name : String)
  | registerBlock (owner : ComponentId) (block : UpdateBlock μ)
  | addConstraints (owner : ComponentId) (pairs : List Constraint)

/-- A hierarchy with the identifiers that were handed out for it. -/
structure Session (μ : Type) where
  hierarchy : Hierarchy μ
  components : List ComponentId
  blocks : List BlockId

namespace Session

/-- A fresh hierarchy, of which the top is known. -/
def new (name : String) : Session μ := ⟨Hierarchy.new name, [top], []⟩

/-- The session after an edit that hands nothing out. -/
def edited (s : Session μ) : Except HierarchyError (Hierarchy μ) → Session μ
  | .ok h => { s with hierarchy := h }
  | .error _ => s

/-- The session after an edit that hands out a component. -/
def withComponent (s : Session μ) : Except HierarchyError (ComponentId × Hierarchy μ) → Session μ
  | .ok (c, h) => { s with hierarchy := h, components := s.components ++ [c] }
  | .error _ => s

/-- The session after an edit that hands out a block. -/
def withBlock (s : Session μ) : Except HierarchyError (BlockId × Hierarchy μ) → Session μ
  | .ok (b, h) => { s with hierarchy := h, blocks := s.blocks ++ [b] }
  | .error _ => s

/-- The session after a call; a refused one changes nothing. -/
def call (s : Session μ) : Call μ → Session μ
  | .addComponent parent name => s.withComponent (s.hierarchy.addComponent parent name)
  | .removeComponent c => s.edited (s.hierarchy.removeComponent c)
  | .removeComponentNamed parent name => s.edited (s.hierarchy.removeComponentNamed parent name)
  | .registerBlock owner block => s.withBlock (s.hierarchy.registerBlock owner block)
  | .addConstraints owner pairs => s.edited (s.hierarchy.addConstraints owner pairs)

/-- The session after calls. -/
def run (s : Session μ) (calls : List (Call μ)) : Session μ := calls.foldl call s

/-- The records agree, and the numbers handed out are those of the records so far. -/
structure Inv (s : Session μ) : Prop where
  records : s.hierarchy.Invariant
  components : s.components.map ComponentId.index = List.range s.hierarchy.components.size
  blocks : s.blocks.map BlockId.index = List.range s.hierarchy.blocks.size

variable {s : Session μ}

theorem inv_new (name : String) : (new name : Session μ).Inv := ⟨invariant_new name, rfl, rfl⟩

theorem Inv.edited (hs : s.Inv) {result : Except HierarchyError (Hierarchy μ)}
    (hresult : ∀ k, result = .ok k → k.Invariant ∧
      k.components.size = s.hierarchy.components.size ∧
      k.blocks.size = s.hierarchy.blocks.size) : (s.edited result).Inv := by
  cases result with
  | error e => exact hs
  | ok k =>
    obtain ⟨hk, hcomponents, hblocks⟩ := hresult k rfl
    refine ⟨hk, ?_, ?_⟩
    · rw [show (s.edited (.ok k)).hierarchy = k from rfl, hcomponents]
      exact hs.components
    · rw [show (s.edited (.ok k)).hierarchy = k from rfl, hblocks]
      exact hs.blocks

theorem Inv.removed (hs : s.Inv) (c : ComponentId) :
    (s.edited (s.hierarchy.removeComponent c)).Inv := by
  refine hs.edited fun k hk => ?_
  obtain ⟨-, _, -, hcomponents, -, -, -, hblocks⟩ := removeComponent_effect hk rfl
  exact ⟨hs.records.removeComponent hk rfl, hcomponents, hblocks⟩

theorem Inv.added (hs : s.Inv) (parent : ComponentId) (name : String) :
    (s.withComponent (s.hierarchy.addComponent parent name)).Inv := by
  cases he : s.hierarchy.addComponent parent name with
  | error e => exact hs
  | ok result =>
    obtain ⟨c, k⟩ := result
    obtain ⟨_, -, -, rfl, hsize, -, hblocks, -⟩ := addComponent_effect he
    refine ⟨hs.records.addComponent he, ?_, ?_⟩
    · show (s.components ++ [_]).map ComponentId.index = List.range k.components.size
      rw [List.map_append, hs.components, hsize, List.range_succ]
      rfl
    · show s.blocks.map BlockId.index = List.range k.blocks.size
      rw [hblocks]
      exact hs.blocks

theorem Inv.registered (hs : s.Inv) (owner : ComponentId) (block : UpdateBlock μ) :
    (s.withBlock (s.hierarchy.registerBlock owner block)).Inv := by
  cases he : s.hierarchy.registerBlock owner block with
  | error e => exact hs
  | ok result =>
    obtain ⟨b, k⟩ := result
    obtain ⟨_, -, -, rfl, hsize, -, hblocks, -⟩ := registerBlock_effect he
    refine ⟨hs.records.registerBlock he, ?_, ?_⟩
    · show s.components.map ComponentId.index = List.range k.components.size
      rw [hsize]
      exact hs.components
    · show (s.blocks ++ [_]).map BlockId.index = List.range k.blocks.size
      rw [List.map_append, hs.blocks, hblocks, Array.size_push, List.range_succ]
      rfl

/-- A call keeps the invariant. -/
theorem Inv.call (hs : s.Inv) (call : Call μ) : (s.call call).Inv := by
  cases call with
  | addComponent parent name => exact hs.added parent name
  | removeComponent c => exact hs.removed c
  | removeComponentNamed parent name =>
    show (s.edited (s.hierarchy.removeComponentNamed parent name)).Inv
    unfold removeComponentNamed
    split
    · exact hs.removed _
    · exact hs
  | registerBlock owner block => exact hs.registered owner block
  | addConstraints owner pairs =>
    refine hs.edited fun k hk => ?_
    obtain ⟨-, -, hsize, -, hblocks, -⟩ := addConstraints_effect hk
    exact ⟨hs.records.addConstraints hk, hsize, by rw [hblocks]⟩

theorem Inv.run (hs : s.Inv) (calls : List (Call μ)) : (s.run calls).Inv := by
  induction calls generalizing s with
  | nil => exact hs
  | cons call calls ih => exact ih (hs.call call)

/-- A call hands out at most one component and at most one block. -/
theorem length_call_le (s : Session μ) (call : Call μ) :
    (s.call call).components.length ≤ s.components.length + 1 ∧
      (s.call call).blocks.length ≤ s.blocks.length + 1 := by
  have hedited : ∀ result, (s.edited result).components.length ≤ s.components.length + 1 ∧
      (s.edited result).blocks.length ≤ s.blocks.length + 1 := by
    intro result
    cases result <;> exact ⟨Nat.le_succ _, Nat.le_succ _⟩
  cases call with
  | addComponent parent name =>
    show (s.withComponent (s.hierarchy.addComponent parent name)).components.length ≤ _ ∧
      (s.withComponent (s.hierarchy.addComponent parent name)).blocks.length ≤ _
    cases s.hierarchy.addComponent parent name <;> simp [withComponent]
  | removeComponent c => exact hedited _
  | removeComponentNamed parent name => exact hedited _
  | registerBlock owner block =>
    show (s.withBlock (s.hierarchy.registerBlock owner block)).components.length ≤ _ ∧
      (s.withBlock (s.hierarchy.registerBlock owner block)).blocks.length ≤ _
    cases s.hierarchy.registerBlock owner block <;> simp [withBlock]
  | addConstraints owner pairs => exact hedited _

theorem length_run_le (s : Session μ) (calls : List (Call μ)) :
    (s.run calls).components.length ≤ s.components.length + calls.length ∧
      (s.run calls).blocks.length ≤ s.blocks.length + calls.length := by
  induction calls generalizing s with
  | nil => exact ⟨Nat.le_refl _, Nat.le_refl _⟩
  | cons call calls ih =>
    obtain ⟨hcomponents, hblocks⟩ := s.length_call_le call
    obtain ⟨hcomponents', hblocks'⟩ := ih (s.call call)
    rw [List.length_cons]
    have hrun : s.run (call :: calls) = (s.call call).run calls := rfl
    rw [hrun]
    omega

/-- **Consistency.**  After any calls the records of the hierarchy are consistent, and all
identifiers that were handed out are different.  They have the 32 bits of an identifier after fewer
than `capacity` calls. -/
theorem run_consistent (name : String) (calls : List (Call μ)) :
    ((new name).run calls).hierarchy.Consistent ∧
      ((new name).run calls).components.Nodup ∧ ((new name).run calls).blocks.Nodup ∧
      (calls.length < capacity →
        (∀ c ∈ ((new name).run calls).components, c.index < capacity) ∧
          ∀ b ∈ ((new name).run calls).blocks, b.index < capacity) := by
  have hs := (inv_new name).run calls
  obtain ⟨hcomponents, hlt⟩ := nodup_and_lt_of_range hs.components
  obtain ⟨hblocks, hlt'⟩ := nodup_and_lt_of_range hs.blocks
  refine ⟨hs.records.consistent, hcomponents, hblocks, fun hcalls => ?_⟩
  obtain ⟨hlength, hlength'⟩ := (new name : Session μ).length_run_le calls
  have hone : (new name : Session μ).components.length = 1 := rfl
  have hzero : (new name : Session μ).blocks.length = 0 := rfl
  constructor
  · intro c hc
    have hc' := hlt c hc
    omega
  · intro b hb
    have hb' := hlt' b hb
    omega

end Session

end Hierarchy

end Cyclewise
