import Cyclewise.Proofs.Hierarchy.Built
import Cyclewise.Proofs.OrderedMap

/-!
# Agreement of the records of a hierarchy

A hierarchy stores the same facts several times: a child is known to its parent and knows it, a
block is known to its owner and knows it, and a constraint is held by the component that declared it
and by the map of all constraints.  `TreeAgrees`, `BlocksAgree` and `ConstraintsAgree` say that these
records agree for everything that is alive.  Here they are kept by the edits that add something;
removal is in `Proofs.Hierarchy.Removal`.
-/

namespace Cyclewise

namespace Hierarchy

variable {μ : Type} {h h' : Hierarchy μ}

/-- A live component has this parent and this name. -/
def IsChild (h : Hierarchy μ) (p : ComponentId) (name : String) (c : ComponentId) : Prop :=
  ∃ child, h.component? c = some child ∧ child.parent = some p ∧ child.name = name

/-- A live block has this owner and this name. -/
def IsOwned (h : Hierarchy μ) (owner : ComponentId) (name : String) (b : BlockId) : Prop :=
  ∃ e, h.entry? b = some e ∧ e.owner = owner ∧ e.block.name = name

/-- Live components form a tree below the top, with children listed by name. -/
structure TreeAgrees (h : Hierarchy μ) : Prop where
  top_live : ∃ node, h.component? top = some node ∧ node.parent = none
  parent : ∀ {c node}, h.component? c = some node → c ≠ top →
    ∃ p, node.parent = some p ∧ p.index < c.index ∧ (h.component? p).isSome
  children : ∀ {p node}, h.component? p = some node → ∀ name c,
    node.children.find? name = some c ↔ h.IsChild p name c

/-- Live components list their blocks by name, and a block lives as long as its owner. -/
structure BlocksAgree (h : Hierarchy μ) : Prop where
  blocks : ∀ {c node}, h.component? c = some node → ∀ name b,
    node.blocks.find? name = some b ↔ h.IsOwned c name b
  owner_lt : ∀ {i : Nat} {e : BlockEntry μ}, h.blocks[i]? = some e →
    e.owner.index < h.components.size
  alive : ∀ {i : Nat} {e : BlockEntry μ}, h.blocks[i]? = some e →
    (e.alive = true ↔ (h.component? e.owner).isSome)

/-- Constraints relate two live blocks, and each live component holds those that it declared. -/
structure ConstraintsAgree (h : Hierarchy μ) : Prop where
  related : ∀ {k owner}, h.constraints.find? k = some owner → k.before ≠ k.after ∧
    (h.entry? k.before).isSome ∧ (h.entry? k.after).isSome ∧ (h.component? owner).isSome
  declared : ∀ {c node}, h.component? c = some node →
    node.constraints = (h.constraints.entries.filter fun e => e.2 = c).map Prod.fst

/-- All records agree. -/
structure Invariant (h : Hierarchy μ) : Prop where
  tree : h.TreeAgrees
  blocks : h.BlocksAgree
  constraints : h.ConstraintsAgree

/-! ## Look-ups -/

theorem lt_size_of_component? {c : ComponentId} {node : Component}
    (hc : h.component? c = some node) : c.index < h.components.size := by
  obtain ⟨hnode, -⟩ := Option.filter_eq_some_iff.1 hc
  obtain ⟨hlt, -⟩ := Array.getElem?_eq_some_iff.1 hnode
  exact hlt

theorem lt_size_of_entry {b : BlockId} (hb : (h.entry? b).isSome) : b.index < h.blocks.size := by
  obtain ⟨e, he⟩ := Option.isSome_iff_exists.1 hb
  obtain ⟨hfind, -⟩ := Option.filter_eq_some_iff.1 he
  obtain ⟨hlt, -⟩ := Array.getElem?_eq_some_iff.1 hfind
  exact hlt

theorem component_eq_ok {c : ComponentId} {node : Component} (hc : h.component c = .ok node) :
    h.component? c = some node := by
  unfold component at hc
  split at hc
  · next hnode =>
    rw [hnode]
    exact congrArg some (Except.ok.inj hc)
  · cases hc

theorem entry_eq_ok {b : BlockId} {e : BlockEntry μ} (hb : h.entry b = .ok e) :
    h.entry? b = some e := by
  unfold entry at hb
  split at hb
  · next he =>
    rw [he]
    exact congrArg some (Except.ok.inj hb)
  · cases hb

theorem find?_eq_none_of_contains {κ α : Type} [DecidableEq κ] {m : OrderedMap κ α} {k : κ}
    (hk : ¬ m.contains k = true) : m.find? k = none := by
  rw [← Option.not_isSome_iff_eq_none, ← OrderedMap.mem_keys_iff_isSome_find?]
  simpa [OrderedMap.contains] using hk

/-- A live block has a live owner. -/
theorem BlocksAgree.owner_live (hb : h.BlocksAgree) {b : BlockId} {e : BlockEntry μ}
    (he : h.entry? b = some e) : (h.component? e.owner).isSome := by
  obtain ⟨hentry, halive⟩ := Option.filter_eq_some_iff.1 he
  exact (hb.alive hentry).1 halive

/-- Changing a component, other than by its death, changes what is found under its number. -/
theorem filter_getElem?_modify (components : Array Component) (c : ComponentId)
    {f : Component → Component} (hf : ∀ node, (f node).alive = node.alive) (d : ComponentId) :
    ((components.modify c.index f)[d.index]?).filter Component.alive =
      ((components[d.index]?).filter Component.alive).map fun node =>
        if d = c then f node else node := by
  rw [Array.getElem?_modify]
  have hdc : c.index = d.index ↔ d = c := by
    constructor
    · intro hindex
      exact (congrArg ComponentId.mk hindex).symm
    · rintro rfl
      rfl
  cases components[d.index]? with
  | none => simp
  | some node =>
    by_cases h : d = c
    · rw [if_pos (hdc.2 h)]
      simp only [Option.map_some, Option.filter_some, hf, if_pos h]
      split <;> rfl
    · rw [if_neg (mt hdc.1 h)]
      simp only [if_neg h, Option.map_id']

/-! ## What stays the same -/

/-- The live components are the same, with the same names, parents and children. -/
def SameTree (h h' : Hierarchy μ) : Prop :=
  ∀ d, (h'.component? d).map (fun node => (node.name, node.parent, node.children)) =
    (h.component? d).map fun node => (node.name, node.parent, node.children)

namespace SameTree

variable (hs : h.SameTree h')

include hs

theorem of_new {d : ComponentId} {node' : Component} (hd : h'.component? d = some node') :
    ∃ node, h.component? d = some node ∧ node'.name = node.name ∧ node'.parent = node.parent ∧
      node'.children = node.children := by
  have heq := hs d
  rw [hd, Option.map_some] at heq
  obtain ⟨node, hnode, hfields⟩ := Option.map_eq_some_iff.1 heq.symm
  obtain ⟨hname, hrest⟩ := Prod.mk.inj hfields
  obtain ⟨hparent, hchildren⟩ := Prod.mk.inj hrest
  exact ⟨node, hnode, hname.symm, hparent.symm, hchildren.symm⟩

theorem symm : h'.SameTree h := fun d => (hs d).symm

theorem isSome_iff (d : ComponentId) : (h'.component? d).isSome ↔ (h.component? d).isSome := by
  rw [← Option.isSome_map, hs d, Option.isSome_map]

theorem isChild_iff (p : ComponentId) (name : String) (c : ComponentId) :
    h'.IsChild p name c ↔ h.IsChild p name c := by
  constructor
  · rintro ⟨child', hchild', hparent, hname⟩
    obtain ⟨child, hchild, hname', hparent', -⟩ := hs.of_new hchild'
    exact ⟨child, hchild, hparent' ▸ hparent, hname' ▸ hname⟩
  · rintro ⟨child, hchild, hparent, hname⟩
    obtain ⟨child', hchild', hname', hparent', -⟩ := hs.symm.of_new hchild
    exact ⟨child', hchild', hparent' ▸ hparent, hname' ▸ hname⟩

theorem treeAgrees (ht : h.TreeAgrees) : h'.TreeAgrees where
  top_live := by
    obtain ⟨node, hnode, hparent⟩ := ht.top_live
    obtain ⟨node', hnode', -, hparent', -⟩ := hs.symm.of_new hnode
    exact ⟨node', hnode', hparent'.symm.trans hparent⟩
  parent := by
    intro c node' hnode' hc
    obtain ⟨node, hnode, -, hparent', -⟩ := hs.of_new hnode'
    obtain ⟨p, hparent, hlt, hlive⟩ := ht.parent hnode hc
    exact ⟨p, hparent'.trans hparent, hlt, (hs.isSome_iff p).2 hlive⟩
  children := by
    intro p node' hnode' name c
    obtain ⟨node, hnode, -, -, hchildren⟩ := hs.of_new hnode'
    rw [hchildren, ht.children hnode, hs.isChild_iff]

end SameTree

/-- The blocks are the same, and so are the lists of blocks of the live components. -/
structure SameBlocks (h h' : Hierarchy μ) : Prop where
  entries : h'.blocks = h.blocks
  size : h'.components.size = h.components.size
  listed : ∀ d, (h'.component? d).map Component.blocks = (h.component? d).map Component.blocks

theorem SameBlocks.blocksAgree (hs : h.SameBlocks h') (hb : h.BlocksAgree) : h'.BlocksAgree where
  blocks := by
    intro c node' hnode' name b
    have heq := hs.listed c
    rw [hnode', Option.map_some] at heq
    obtain ⟨node, hnode, hblocks⟩ := Option.map_eq_some_iff.1 heq.symm
    rw [← hblocks, hb.blocks hnode]
    unfold IsOwned entry?
    rw [hs.entries]
  owner_lt := by
    intro i e he
    rw [hs.entries] at he
    rw [hs.size]
    exact hb.owner_lt he
  alive := by
    intro i e he
    rw [hs.entries] at he
    rw [hb.alive he, ← Option.isSome_map, ← hs.listed, Option.isSome_map]

/-! ## Adding a component -/

theorem addComponent_effect {parent c : ComponentId} {name : String}
    (he : h.addComponent parent name = .ok (c, h')) :
    ∃ node, h.component? parent = some node ∧ node.children.find? name = none ∧
      c = ⟨h.components.size⟩ ∧ h'.components.size = h.components.size + 1 ∧
      (∀ d, h'.component? d = if d = c then some (Component.fresh name parent)
        else if d = parent then some { node with children := node.children.insert name c }
        else h.component? d) ∧
      h'.blocks = h.blocks ∧ h'.constraints = h.constraints := by
  simp only [addComponent, bind, Except.bind] at he
  split at he
  · cases he
  · next node hnode =>
    have hnode := component_eq_ok hnode
    split at he
    · cases he
    · next hname =>
      obtain ⟨rfl, rfl⟩ := Prod.mk.inj (Except.ok.inj he)
      refine ⟨node, hnode, find?_eq_none_of_contains hname, rfl, ?_, fun d => ?_, rfl, rfl⟩
      · show (Array.modify _ _ _).size = _
        rw [Array.size_modify, Array.size_push]
      have hlt := lt_size_of_component? hnode
      show Option.filter Component.alive ((Array.modify _ _ _)[d.index]?) = _
      rw [filter_getElem?_modify _ _ (fun _ => by rfl), Array.getElem?_push]
      by_cases hd : d = ⟨h.components.size⟩
      · subst hd
        have hne : (⟨h.components.size⟩ : ComponentId) ≠ parent := by
          rintro rfl
          exact Nat.lt_irrefl _ hlt
        simp [hne, Component.fresh]
      · have hd' : d.index ≠ h.components.size := fun hindex => hd (congrArg ComponentId.mk hindex)
        rw [if_neg hd', if_neg hd]
        show (h.component? d).map _ = _
        by_cases hparent : d = parent
        · subst hparent
          rw [hnode]
          simp
        · simp [hparent]

section AddComponent

variable {parent c : ComponentId} {name : String}
  (he : h.addComponent parent name = .ok (c, h'))

include he

theorem component?_new : h.component? c = none := by
  obtain ⟨-, -, -, rfl, -⟩ := addComponent_effect he
  cases hnode : h.component? ⟨h.components.size⟩ with
  | none => rfl
  | some node => exact absurd (lt_size_of_component? hnode) (Nat.lt_irrefl _)

/-- A component found afterwards is the new one or an old one, which keeps all but its children. -/
theorem component?_addComponent {d : ComponentId} {node' : Component}
    (hd : h'.component? d = some node') :
    (d = c ∧ node' = Component.fresh name parent) ∨
      ∃ node, h.component? d = some node ∧ node'.parent = node.parent ∧ node'.name = node.name ∧
        node'.blocks = node.blocks ∧ node'.constraints = node.constraints ∧
        ∀ n, node'.children.find? n =
          if d = parent ∧ n = name then some c else node.children.find? n := by
  obtain ⟨node, hparent, -, -, -, hcomponent, -⟩ := addComponent_effect he
  rw [hcomponent] at hd
  by_cases hdc : d = c
  · rw [if_pos hdc] at hd
    exact .inl ⟨hdc, (Option.some.inj hd).symm⟩
  · rw [if_neg hdc] at hd
    by_cases hdp : d = parent
    · rw [if_pos hdp] at hd
      obtain rfl := Option.some.inj hd
      refine .inr ⟨node, hdp ▸ hparent, rfl, rfl, rfl, rfl, fun n => ?_⟩
      rw [OrderedMap.find?_insert]
      simp [hdp]
    · rw [if_neg hdp] at hd
      exact .inr ⟨node', hd, rfl, rfl, rfl, rfl, fun n => by simp [hdp]⟩

theorem exists_component?_addComponent {d : ComponentId} {node : Component}
    (hd : h.component? d = some node) :
    ∃ node', h'.component? d = some node' ∧ node'.parent = node.parent ∧ node'.name = node.name := by
  obtain ⟨node₀, hparent, -, -, -, hcomponent, -⟩ := addComponent_effect he
  have hdc : d ≠ c := by
    rintro rfl
    rw [component?_new he] at hd
    cases hd
  rw [hcomponent, if_neg hdc]
  by_cases hdp : d = parent
  · subst hdp
    obtain rfl := Option.some.inj (hparent.symm.trans hd)
    exact ⟨_, if_pos rfl, rfl, rfl⟩
  · exact ⟨node, by rw [if_neg hdp]; exact hd, rfl, rfl⟩

theorem isSome_component?_addComponent (d : ComponentId) :
    (h'.component? d).isSome ↔ d = c ∨ (h.component? d).isSome := by
  constructor
  · intro hd
    obtain ⟨node', hnode'⟩ := Option.isSome_iff_exists.1 hd
    rcases component?_addComponent he hnode' with ⟨hdc, -⟩ | ⟨node, hnode, -⟩
    · exact .inl hdc
    · exact .inr (by rw [hnode]; rfl)
  · rintro (rfl | hd)
    · obtain ⟨_, -, -, -, -, hcomponent, -⟩ := addComponent_effect he
      rw [hcomponent, if_pos rfl]
      rfl
    · obtain ⟨node, hnode⟩ := Option.isSome_iff_exists.1 hd
      obtain ⟨node', hnode', -⟩ := exists_component?_addComponent he hnode
      rw [hnode']
      rfl

theorem isChild_addComponent (p : ComponentId) (n : String) (d : ComponentId) :
    h'.IsChild p n d ↔ (p = parent ∧ n = name ∧ d = c) ∨ h.IsChild p n d := by
  constructor
  · rintro ⟨child', hchild', hparent, hname⟩
    rcases component?_addComponent he hchild' with ⟨rfl, rfl⟩ | ⟨child, hchild, hparent', hname', -⟩
    · exact .inl ⟨(Option.some.inj hparent).symm, hname.symm, rfl⟩
    · exact .inr ⟨child, hchild, hparent' ▸ hparent, hname' ▸ hname⟩
  · rintro (⟨rfl, rfl, rfl⟩ | ⟨child, hchild, hparent, hname⟩)
    · obtain ⟨_, -, -, -, -, hcomponent, -⟩ := addComponent_effect he
      exact ⟨_, (hcomponent d).trans (if_pos rfl), rfl, rfl⟩
    · obtain ⟨child', hchild', hparent', hname'⟩ := exists_component?_addComponent he hchild
      exact ⟨child', hchild', hparent'.trans hparent, hname'.trans hname⟩

theorem TreeAgrees.addComponent (ht : h.TreeAgrees) : h'.TreeAgrees where
  top_live := by
    obtain ⟨node, hnode, hparent⟩ := ht.top_live
    obtain ⟨node', hnode', hparent', -⟩ := exists_component?_addComponent he hnode
    exact ⟨node', hnode', hparent'.trans hparent⟩
  parent := by
    intro d node' hnode' hd
    rcases component?_addComponent he hnode' with ⟨rfl, rfl⟩ | ⟨node, hnode, hparent', -⟩
    · obtain ⟨node, hparent, -, rfl, -⟩ := addComponent_effect he
      refine ⟨parent, rfl, lt_size_of_component? hparent, ?_⟩
      rw [isSome_component?_addComponent he, hparent]
      exact .inr rfl
    · obtain ⟨p, hparent, hlt, hlive⟩ := ht.parent hnode hd
      exact ⟨p, hparent'.trans hparent, hlt, (isSome_component?_addComponent he p).2 (.inr hlive)⟩
  children := by
    intro p node' hnode' n d
    obtain ⟨node₀, hparent, hfree, -, -⟩ := addComponent_effect he
    rw [isChild_addComponent he]
    rcases component?_addComponent he hnode' with ⟨rfl, rfl⟩ | ⟨node, hnode, -, -, -, -, hfind⟩
    · -- nothing is below the new component
      have hnot : ¬ h.IsChild p n d := by
        rintro ⟨child, hchild, hp, -⟩
        have hdtop : d ≠ top := by
          rintro rfl
          obtain ⟨node, hnode, hnone⟩ := ht.top_live
          obtain rfl := Option.some.inj (hchild.symm.trans hnode)
          rw [hp] at hnone
          cases hnone
        obtain ⟨q, hq, -, hlive⟩ := ht.parent hchild hdtop
        obtain rfl := Option.some.inj (hp.symm.trans hq)
        rw [component?_new he] at hlive
        cases hlive
      have hne : p ≠ parent := by
        rintro rfl
        rw [component?_new he] at hparent
        cases hparent
      simp only [hne, hnot, false_and, or_self, iff_false]
      intro hd
      cases hd
    · rw [hfind]
      by_cases hnew : p = parent ∧ n = name
      · obtain ⟨rfl, rfl⟩ := hnew
        have hnot : ¬ h.IsChild p n d := by
          rw [← ht.children hparent, hfree]
          intro hd
          cases hd
        simp [hnot, eq_comm]
      · rw [if_neg hnew, ht.children hnode]
        constructor
        · exact .inr
        · rintro (⟨rfl, rfl, -⟩ | hd)
          · exact absurd ⟨rfl, rfl⟩ hnew
          · exact hd

theorem entry?_addComponent (b : BlockId) : h'.entry? b = h.entry? b := by
  obtain ⟨-, -, -, -, -, -, hblocks, -⟩ := addComponent_effect he
  unfold entry?
  rw [hblocks]

theorem isOwned_addComponent (owner : ComponentId) (n : String) (b : BlockId) :
    h'.IsOwned owner n b ↔ h.IsOwned owner n b := by
  unfold IsOwned
  rw [entry?_addComponent he]

theorem BlocksAgree.addComponent (hb : h.BlocksAgree) : h'.BlocksAgree where
  blocks := by
    intro d node' hnode' n b
    rw [isOwned_addComponent he]
    rcases component?_addComponent he hnode' with ⟨rfl, rfl⟩ | ⟨node, hnode, -, -, hblocks, -⟩
    · -- nothing is owned by the new component
      have hnot : ¬ h.IsOwned d n b := by
        rintro ⟨e, hentry, rfl, -⟩
        have hlive := hb.owner_live hentry
        rw [component?_new he] at hlive
        cases hlive
      simp only [hnot, iff_false]
      intro hd
      cases hd
    · rw [hblocks, hb.blocks hnode]
  owner_lt := by
    obtain ⟨-, -, -, -, hsize, -, hblocks, -⟩ := addComponent_effect he
    intro i e hentry
    rw [hblocks] at hentry
    have := hb.owner_lt hentry
    omega
  alive := by
    obtain ⟨-, -, -, rfl, -, -, hblocks, -⟩ := addComponent_effect he
    intro i e hentry
    rw [hblocks] at hentry
    have hlt := hb.owner_lt hentry
    have hne : e.owner ≠ ⟨h.components.size⟩ := by
      intro heq
      rw [heq] at hlt
      exact Nat.lt_irrefl _ hlt
    rw [hb.alive hentry, isSome_component?_addComponent he]
    simp [hne]

theorem ConstraintsAgree.addComponent (hc : h.ConstraintsAgree) : h'.ConstraintsAgree where
  related := by
    obtain ⟨-, -, -, -, -, -, -, hconstraints⟩ := addComponent_effect he
    intro k owner hk
    rw [hconstraints] at hk
    obtain ⟨hne, hbefore, hafter, howner⟩ := hc.related hk
    rw [entry?_addComponent he, entry?_addComponent he, isSome_component?_addComponent he]
    exact ⟨hne, hbefore, hafter, .inr howner⟩
  declared := by
    obtain ⟨-, -, -, -, -, -, -, hconstraints⟩ := addComponent_effect he
    intro d node' hnode'
    rw [hconstraints]
    rcases component?_addComponent he hnode' with ⟨rfl, rfl⟩ | ⟨node, hnode, -, -, -, heq, -⟩
    · -- nothing is declared by the new component
      have hnone : h.constraints.entries.filter (fun e => e.2 = d) = [] := by
        rw [List.filter_eq_nil_iff]
        rintro ⟨k, owner⟩ hk howner
        obtain rfl := of_decide_eq_true howner
        have hlive := (hc.related (OrderedMap.mem_entries_iff.1 hk)).2.2.2
        rw [component?_new he] at hlive
        cases hlive
      rw [hnone]
      rfl
    · rw [heq, hc.declared hnode]

theorem Invariant.addComponent (hh : h.Invariant) : h'.Invariant :=
  ⟨hh.tree.addComponent he, hh.blocks.addComponent he, hh.constraints.addComponent he⟩

end AddComponent

/-! ## Registering a block -/

theorem registerBlock_effect {owner : ComponentId} {block : UpdateBlock μ} {b : BlockId}
    (he : h.registerBlock owner block = .ok (b, h')) :
    ∃ node, h.component? owner = some node ∧ node.blocks.find? block.name = none ∧
      b = ⟨h.blocks.size⟩ ∧ h'.components.size = h.components.size ∧
      (∀ d, h'.component? d = (h.component? d).map fun node =>
        if d = owner then { node with blocks := node.blocks.insert block.name b } else node) ∧
      h'.blocks = h.blocks.push ⟨block, owner, true⟩ ∧ h'.constraints = h.constraints := by
  simp only [registerBlock, bind, Except.bind] at he
  split at he
  · cases he
  · next node hnode =>
    split at he
    · cases he
    · next hname =>
      obtain ⟨rfl, rfl⟩ := Prod.mk.inj (Except.ok.inj he)
      refine ⟨node, component_eq_ok hnode, find?_eq_none_of_contains hname, rfl, ?_, fun d => ?_,
        rfl, rfl⟩
      · show (Array.modify _ _ _).size = _
        rw [Array.size_modify]
      · show Option.filter Component.alive ((Array.modify _ _ _)[d.index]?) = _
        rw [filter_getElem?_modify _ _ (fun _ => by rfl)]
        rfl

section RegisterBlock

variable {owner : ComponentId} {block : UpdateBlock μ} {b : BlockId}
  (he : h.registerBlock owner block = .ok (b, h'))

include he

theorem sameTree_registerBlock : h.SameTree h' := by
  obtain ⟨_, -, -, -, -, hcomponent, -⟩ := registerBlock_effect he
  intro d
  rw [hcomponent, Option.map_map]
  refine Option.map_congr fun node _ => ?_
  by_cases hd : d = owner <;> simp [hd]

theorem entry?_registerBlock (x : BlockId) :
    h'.entry? x = if x = b then some ⟨block, owner, true⟩ else h.entry? x := by
  obtain ⟨_, -, -, rfl, -, -, hblocks, -⟩ := registerBlock_effect he
  unfold entry?
  rw [hblocks, Array.getElem?_push]
  by_cases hx : x = ⟨h.blocks.size⟩
  · subst hx
    simp
  · have hx' : x.index ≠ h.blocks.size := fun hindex => hx (congrArg BlockId.mk hindex)
    rw [if_neg hx', if_neg hx]

theorem entry?_new : h.entry? b = none := by
  obtain ⟨_, -, -, rfl, -⟩ := registerBlock_effect he
  unfold entry?
  rw [Array.getElem?_eq_none (Nat.le_refl _)]
  rfl

theorem isOwned_registerBlock (c : ComponentId) (n : String) (x : BlockId) :
    h'.IsOwned c n x ↔ (c = owner ∧ n = block.name ∧ x = b) ∨ h.IsOwned c n x := by
  unfold IsOwned
  rw [entry?_registerBlock he]
  by_cases hx : x = b
  · subst hx
    rw [entry?_new he]
    simp [eq_comm]
  · simp [hx]

theorem BlocksAgree.registerBlock (hb : h.BlocksAgree) : h'.BlocksAgree where
  blocks := by
    obtain ⟨node₀, howner, hfree, -, -, hcomponent, -⟩ := registerBlock_effect he
    intro c node' hnode' n x
    rw [hcomponent] at hnode'
    obtain ⟨node, hnode, rfl⟩ := Option.map_eq_some_iff.1 hnode'
    rw [isOwned_registerBlock he, ← hb.blocks hnode]
    by_cases hc : c = owner
    · subst hc
      obtain rfl := Option.some.inj (howner.symm.trans hnode)
      rw [if_pos rfl]
      show (node₀.blocks.insert block.name b).find? n = some x ↔ _
      rw [OrderedMap.find?_insert]
      by_cases hn : n = block.name
      · subst hn
        simp [hfree, eq_comm]
      · simp [hn]
    · simp [hc]
  owner_lt := by
    obtain ⟨node, howner, -, -, hsize, -, hblocks, -⟩ := registerBlock_effect he
    intro i e hentry
    rw [hblocks, Array.getElem?_push] at hentry
    rw [hsize]
    split at hentry
    · obtain rfl := Option.some.inj hentry
      exact lt_size_of_component? howner
    · exact hb.owner_lt hentry
  alive := by
    obtain ⟨node, howner, -, -, -, -, hblocks, -⟩ := registerBlock_effect he
    intro i e hentry
    rw [(sameTree_registerBlock he).isSome_iff]
    rw [hblocks, Array.getElem?_push] at hentry
    split at hentry
    · obtain rfl := Option.some.inj hentry
      show true = true ↔ (h.component? owner).isSome
      rw [howner]
      simp
    · exact hb.alive hentry

theorem ConstraintsAgree.registerBlock (hc : h.ConstraintsAgree) : h'.ConstraintsAgree where
  related := by
    obtain ⟨_, -, -, -, -, -, -, hconstraints⟩ := registerBlock_effect he
    intro k c hk
    rw [hconstraints] at hk
    obtain ⟨hne, hbefore, hafter, howner⟩ := hc.related hk
    have hkeep : ∀ x, (h.entry? x).isSome → (h'.entry? x).isSome := by
      intro x hx
      rw [entry?_registerBlock he]
      split
      · rfl
      · exact hx
    exact ⟨hne, hkeep _ hbefore, hkeep _ hafter, ((sameTree_registerBlock he).isSome_iff c).2 howner⟩
  declared := by
    obtain ⟨_, -, -, -, -, hcomponent, -, hconstraints⟩ := registerBlock_effect he
    intro c node' hnode'
    rw [hcomponent] at hnode'
    obtain ⟨node, hnode, rfl⟩ := Option.map_eq_some_iff.1 hnode'
    rw [hconstraints, ← hc.declared hnode]
    split <;> rfl

theorem Invariant.registerBlock (hh : h.Invariant) : h'.Invariant :=
  ⟨(sameTree_registerBlock he).treeAgrees hh.tree, hh.blocks.registerBlock he,
    hh.constraints.registerBlock he⟩

end RegisterBlock

/-! ## Declaring constraints -/

/-- An accepted constraint relates two live blocks and is new. -/
theorem checkConstraint_eq_ok {k : Constraint} (hk : h.checkConstraint k = .ok ()) :
    k.before ≠ k.after ∧ (h.entry? k.before).isSome ∧ (h.entry? k.after).isSome ∧
      h.constraints.find? k = none := by
  simp only [checkConstraint, bind, Except.bind] at hk
  split at hk
  · cases hk
  · next before hbefore =>
    split at hk
    · cases hk
    · next after hafter =>
      split at hk
      · cases hk
      · next hne =>
        rw [entry_eq_ok hbefore, entry_eq_ok hafter]
        refine ⟨hne, rfl, rfl, ?_⟩
        split at hk
        · cases hk
        · next hnone => exact hnone

/-- Accepted constraints are accepted one by one and do not repeat. -/
theorem checkConstraints_each {owner : ComponentId} {accepted accepted' pairs : List Constraint}
    (hc : h.checkConstraints owner accepted pairs = .ok accepted') :
    (∀ k ∈ pairs, h.checkConstraint k = .ok ()) ∧ (accepted.Nodup → accepted'.Nodup) := by
  induction pairs generalizing accepted with
  | nil =>
    obtain rfl := Except.ok.inj hc
    exact ⟨fun k hk => (by cases hk), id⟩
  | cons k rest ih =>
    simp only [checkConstraints, bind, Except.bind] at hc
    split at hc
    · cases hc
    · next hk =>
      split at hc
      · cases hc
      · next hnew =>
        obtain ⟨hrest, hnodup⟩ := ih hc
        refine ⟨fun k' hk' => ?_, fun h => hnodup ?_⟩
        · rcases List.mem_cons.1 hk' with rfl | hk'
          · exact hk
          · exact hrest k' hk'
        · refine List.nodup_append.2 ⟨h, List.pairwise_singleton _ k, fun a ha b hb hab => hnew ?_⟩
          rw [← List.mem_singleton.1 hb, ← hab]
          exact ha

theorem addConstraints_effect {owner : ComponentId} {pairs : List Constraint}
    (he : h.addConstraints owner pairs = .ok h') :
    (h.component? owner).isSome ∧
      (∀ k ∈ pairs, k.before ≠ k.after ∧ (h.entry? k.before).isSome ∧
        (h.entry? k.after).isSome ∧ h.constraints.find? k = none) ∧
      h'.components.size = h.components.size ∧
      (∀ d, h'.component? d = (h.component? d).map fun node =>
        if d = owner then { node with constraints := node.constraints ++ pairs } else node) ∧
      h'.blocks = h.blocks ∧
      h'.constraints.entries = h.constraints.entries ++ pairs.map fun k => (k, owner) := by
  simp only [addConstraints, bind, Except.bind] at he
  split at he
  · cases he
  · next node hnode =>
    split at he
    · cases he
    · next accepted haccepted =>
      obtain ⟨heach, hnodup⟩ := checkConstraints_each haccepted
      obtain rfl : accepted = pairs := checkConstraints_eq_ok haccepted
      have hchecked := fun k hk => checkConstraint_eq_ok (heach k hk)
      have hlive : (h.component? owner).isSome := by
        rw [component_eq_ok hnode]
        rfl
      split at he
      · next hempty =>
        obtain rfl := Except.ok.inj he
        obtain rfl := List.isEmpty_iff.1 hempty
        refine ⟨hlive, hchecked, rfl, fun d => ?_, rfl, (List.append_nil _).symm⟩
        cases h.component? d with
        | none => rfl
        | some node => by_cases hd : d = owner <;> simp [hd]
      · obtain rfl := Except.ok.inj he
        refine ⟨hlive, hchecked, ?_, fun d => ?_, rfl, ?_⟩
        · show (Array.modify _ _ _).size = _
          rw [Array.size_modify]
        · show Option.filter Component.alive ((Array.modify _ _ _)[d.index]?) = _
          rw [filter_getElem?_modify _ _ (fun _ => by rfl)]
          rfl
        · show (accepted.foldl (fun m k => m.insert k owner) h.constraints).entries = _
          have hkeys : (h.constraints.keys ++ accepted).Nodup := by
            refine List.nodup_append.2 ⟨h.constraints.nodup_keys, hnodup List.nodup_nil, ?_⟩
            rintro k hk k' hk' rfl
            obtain ⟨c, hfind⟩ := OrderedMap.mem_keys_iff.1 hk
            have hnone := (hchecked k hk').2.2.2
            rw [hnone] at hfind
            cases hfind
          exact OrderedMap.entries_foldl_insert_const h.constraints owner hkeys

section AddConstraints

variable {owner : ComponentId} {pairs : List Constraint}
  (he : h.addConstraints owner pairs = .ok h')

include he

theorem sameTree_addConstraints : h.SameTree h' := by
  obtain ⟨-, -, -, hcomponent, -⟩ := addConstraints_effect he
  intro d
  rw [hcomponent, Option.map_map]
  refine Option.map_congr fun node _ => ?_
  by_cases hd : d = owner <;> simp [hd]

theorem entry?_addConstraints (b : BlockId) : h'.entry? b = h.entry? b := by
  obtain ⟨-, -, -, -, hblocks, -⟩ := addConstraints_effect he
  unfold entry?
  rw [hblocks]

theorem sameBlocks_addConstraints : h.SameBlocks h' := by
  obtain ⟨-, -, hsize, hcomponent, hblocks, -⟩ := addConstraints_effect he
  refine ⟨hblocks, hsize, fun d => ?_⟩
  rw [hcomponent, Option.map_map]
  refine Option.map_congr fun node _ => ?_
  by_cases hd : d = owner <;> simp [hd]

theorem ConstraintsAgree.addConstraints (hc : h.ConstraintsAgree) : h'.ConstraintsAgree where
  related := by
    obtain ⟨howner, hpairs, -, -, -, hentries⟩ := addConstraints_effect he
    intro k c hk
    rw [← OrderedMap.mem_entries_iff, hentries, List.mem_append] at hk
    rw [entry?_addConstraints he, entry?_addConstraints he,
      (sameTree_addConstraints he).isSome_iff]
    rcases hk with hk | hk
    · exact hc.related (OrderedMap.mem_entries_iff.1 hk)
    · obtain ⟨k', hk', heq⟩ := List.mem_map.1 hk
      obtain ⟨rfl, rfl⟩ := Prod.mk.inj heq
      obtain ⟨hne, hbefore, hafter, -⟩ := hpairs k' hk'
      exact ⟨hne, hbefore, hafter, howner⟩
  declared := by
    obtain ⟨-, -, -, hcomponent, -, hentries⟩ := addConstraints_effect he
    intro c node' hnode'
    rw [hcomponent] at hnode'
    obtain ⟨node, hnode, rfl⟩ := Option.map_eq_some_iff.1 hnode'
    rw [hentries, List.filter_append, List.map_append, ← hc.declared hnode]
    by_cases hco : c = owner
    · subst hco
      simp [List.filter_map, Function.comp_def]
    · simp [List.filter_map, Function.comp_def, hco, Ne.symm hco]

theorem Invariant.addConstraints (hh : h.Invariant) : h'.Invariant :=
  ⟨(sameTree_addConstraints he).treeAgrees hh.tree, (sameBlocks_addConstraints he).blocksAgree hh.blocks,
    hh.constraints.addConstraints he⟩

end AddConstraints

end Hierarchy

end Cyclewise
