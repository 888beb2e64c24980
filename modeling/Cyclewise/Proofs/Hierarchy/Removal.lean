import Cyclewise.Proofs.Hierarchy.Traversal

/-!
# Removing a subtree

Removing a subtree takes its components, their blocks, and every constraint that was declared there
or mentions one of these blocks out of all records at once, and so keeps them in agreement
(`Invariant.removeComponent`).
-/

namespace Cyclewise

namespace Hierarchy

variable {μ : Type} {h h' : Hierarchy μ}

/-! ## What a removal does -/

theorem removeComponent_effect {c : ComponentId} (he : h.removeComponent c = .ok h')
    {dead : List ComponentId} (hdead : dead = h.subtree c) :
    c ≠ top ∧ ∃ node, h.component? c = some node ∧
      h'.components.size = h.components.size ∧
      (∀ d, h'.component? d = if d ∈ dead then none else
        (h.component? d).map fun old =>
          { old with
            children := if node.parent = some d then old.children.erase node.name else old.children
            constraints := old.constraints.filter fun k => !stale dead (h.blocksOf dead) k d }) ∧
      (∀ i : Nat, h'.blocks[i]? = (h.blocks[i]?).map fun e =>
        { e with alive := e.alive && decide (⟨i⟩ ∉ h.blocksOf dead) }) ∧
      h'.constraints = (h.constraints.filter fun k owner =>
        !stale dead (h.blocksOf dead) k owner) ∧
      h'.blocks.size = h.blocks.size := by
  subst hdead
  simp only [removeComponent, bind, Except.bind] at he
  split at he
  · cases he
  · next htop =>
    split at he
    · cases he
    · next node hnode =>
      obtain rfl := Except.ok.inj he
      refine ⟨fun heq => htop heq, node, component_eq_ok hnode, ?_, fun d => ?_, fun i => ?_, rfl,
        ?_⟩
      · show (Array.mapIdx _ _).size = _
        rw [Array.size_mapIdx]
      · show Option.filter Component.alive ((Array.mapIdx _ _)[d.index]?) = _
        rw [Array.getElem?_mapIdx]
        unfold component?
        cases h.components[d.index]? with
        | none => simp
        | some old =>
          rw [Option.map_some, Option.filter_some, Option.filter_some]
          by_cases hd : d ∈ h.subtree c
          · simp [hd]
          · cases halive : old.alive
            · simp
            · simp [hd, halive]
      · show (Array.mapIdx _ _)[i]? = _
        rw [Array.getElem?_mapIdx]
      · show (Array.mapIdx _ _).size = _
        rw [Array.size_mapIdx]

/-- The blocks of live components are the live blocks with these owners. -/
theorem BlocksAgree.mem_blocksOf (hb : h.BlocksAgree) {cs : List ComponentId} {b : BlockId} :
    b ∈ h.blocksOf cs ↔ ∃ e, h.entry? b = some e ∧ e.owner ∈ cs := by
  unfold blocksOf
  rw [List.mem_flatMap]
  constructor
  · rintro ⟨c, hc, hmem⟩
    cases hnode : h.component? c with
    | none =>
      rw [hnode] at hmem
      cases hmem
    | some node =>
      rw [hnode] at hmem
      obtain ⟨⟨n, b⟩, hentry, rfl⟩ := List.mem_map.1 hmem
      obtain ⟨e, he, rfl, -⟩ := (hb.blocks hnode n b).1 (OrderedMap.mem_entries_iff.1 hentry)
      exact ⟨e, he, hc⟩
  · rintro ⟨e, he, howner⟩
    obtain ⟨node, hnode⟩ := Option.isSome_iff_exists.1 (hb.owner_live he)
    refine ⟨e.owner, howner, ?_⟩
    rw [hnode]
    have hfind := (hb.blocks hnode e.block.name b).2 ⟨e, he, rfl, rfl⟩
    exact List.mem_map.2 ⟨_, OrderedMap.mem_entries_iff.2 hfind, rfl⟩

section RemoveComponent

variable {c : ComponentId} (he : h.removeComponent c = .ok h') {dead : List ComponentId}
  (hdead : dead = h.subtree c)

include he hdead

/-- A component found afterwards was found before and is not in the subtree; it keeps its name, its
parent and its blocks. -/
theorem component?_removeComponent {d : ComponentId} {node' : Component}
    (hd : h'.component? d = some node') :
    d ∉ dead ∧ ∃ old, h.component? d = some old ∧ node'.parent = old.parent ∧
      node'.name = old.name ∧ node'.blocks = old.blocks := by
  obtain ⟨-, node, -, -, hcomponent, -⟩ := removeComponent_effect he hdead
  rw [hcomponent] at hd
  by_cases hmem : d ∈ dead
  · rw [if_pos hmem] at hd
    cases hd
  · rw [if_neg hmem] at hd
    obtain ⟨old, hold, rfl⟩ := Option.map_eq_some_iff.1 hd
    exact ⟨hmem, old, hold, rfl, rfl, rfl⟩

theorem exists_component?_removeComponent {d : ComponentId} {old : Component}
    (hd : h.component? d = some old) (hmem : d ∉ dead) :
    ∃ node', h'.component? d = some node' ∧ node'.parent = old.parent ∧
      node'.name = old.name := by
  obtain ⟨-, node, -, -, hcomponent, -⟩ := removeComponent_effect he hdead
  rw [hcomponent, if_neg hmem, hd]
  exact ⟨_, rfl, rfl, rfl⟩

theorem isSome_component?_removeComponent (d : ComponentId) :
    (h'.component? d).isSome ↔ d ∉ dead ∧ (h.component? d).isSome := by
  constructor
  · intro hd
    obtain ⟨node', hnode'⟩ := Option.isSome_iff_exists.1 hd
    obtain ⟨hmem, old, hold, -⟩ := component?_removeComponent he hdead hnode'
    exact ⟨hmem, by rw [hold]; rfl⟩
  · rintro ⟨hmem, hd⟩
    obtain ⟨old, hold⟩ := Option.isSome_iff_exists.1 hd
    obtain ⟨node', hnode', -⟩ := exists_component?_removeComponent he hdead hold hmem
    rw [hnode']
    rfl

theorem isChild_removeComponent (p : ComponentId) (n : String) (d : ComponentId) :
    h'.IsChild p n d ↔ h.IsChild p n d ∧ d ∉ dead := by
  constructor
  · rintro ⟨child', hchild', hparent, hname⟩
    obtain ⟨hmem, child, hchild, hparent', hname', -⟩ :=
      component?_removeComponent he hdead hchild'
    exact ⟨⟨child, hchild, hparent' ▸ hparent, hname' ▸ hname⟩, hmem⟩
  · rintro ⟨⟨child, hchild, hparent, hname⟩, hmem⟩
    obtain ⟨child', hchild', hparent', hname'⟩ :=
      exists_component?_removeComponent he hdead hchild hmem
    exact ⟨child', hchild', hparent'.trans hparent, hname'.trans hname⟩

theorem isSubtree_removed (ht : h.TreeAgrees) : h.IsSubtree c dead := by
  obtain ⟨-, node, hnode, -⟩ := removeComponent_effect he hdead
  rw [hdead]
  exact ht.isSubtree (by rw [hnode]; rfl)

theorem TreeAgrees.removeComponent (ht : h.TreeAgrees) : h'.TreeAgrees where
  top_live := by
    have hs := isSubtree_removed he hdead ht
    obtain ⟨hctop, -⟩ := removeComponent_effect he hdead
    obtain ⟨node, hnode, hparent⟩ := ht.top_live
    obtain ⟨node', hnode', hparent', -⟩ :=
      exists_component?_removeComponent he hdead hnode (hs.top_not_mem hctop)
    exact ⟨node', hnode', hparent'.trans hparent⟩
  parent := by
    have hs := isSubtree_removed he hdead ht
    intro d node' hnode' hd
    obtain ⟨hmem, old, hold, hparent', -⟩ := component?_removeComponent he hdead hnode'
    obtain ⟨p, hparent, hlt, hlive⟩ := ht.parent hold hd
    refine ⟨p, hparent'.trans hparent, hlt, ?_⟩
    rw [isSome_component?_removeComponent he hdead]
    exact ⟨fun hp => hmem (hs.mem_of_isChild hp ⟨old, hold, hparent, rfl⟩), hlive⟩
  children := by
    have hs := isSubtree_removed he hdead ht
    obtain ⟨-, node, hnode, -, hcomponent, -⟩ := removeComponent_effect he hdead
    intro p node' hnode' n d
    rw [isChild_removeComponent he hdead]
    rw [hcomponent] at hnode'
    by_cases hp : p ∈ dead
    · rw [if_pos hp] at hnode'
      cases hnode'
    · rw [if_neg hp] at hnode'
      obtain ⟨old, hold, rfl⟩ := Option.map_eq_some_iff.1 hnode'
      show (if node.parent = some p then old.children.erase node.name
        else old.children).find? n = some d ↔ _
      by_cases hparent : node.parent = some p
      · -- the parent forgets the root of the subtree
        have hroot : h.IsChild p node.name c := ⟨node, hnode, hparent, rfl⟩
        rw [if_pos hparent, OrderedMap.find?_erase]
        by_cases hn : n = node.name
        · subst hn
          rw [if_pos rfl]
          constructor
          · intro hnone
            cases hnone
          · rintro ⟨hd, hmem⟩
            have hfind := (ht.children hold _ c).2 hroot
            rw [(ht.children hold _ d).2 hd] at hfind
            obtain rfl := Option.some.inj hfind
            exact absurd hs.root_mem hmem
        · rw [if_neg hn, ht.children hold]
          constructor
          · intro hd
            refine ⟨hd, fun hmem => hn ?_⟩
            rw [hs.eq_root hp hd hmem] at hd
            exact (hd.unique hroot).2
          · exact And.left
      · rw [if_neg hparent, ht.children hold]
        constructor
        · intro hd
          refine ⟨hd, fun hmem => hparent ?_⟩
          rw [hs.eq_root hp hd hmem] at hd
          obtain ⟨child, hchild, hp', -⟩ := hd
          obtain rfl := Option.some.inj (hchild.symm.trans hnode)
          exact hp'
        · exact And.left

/-- The live blocks afterwards are those with owners outside the subtree. -/
theorem entry?_removeComponent (hb : h.BlocksAgree) (b : BlockId) :
    h'.entry? b = (h.entry? b).filter fun e => decide (e.owner ∉ dead) := by
  obtain ⟨-, _, -, -, -, hblocks, -⟩ := removeComponent_effect he hdead
  have hmem : b ∈ h.blocksOf dead ↔ ∃ e, h.entry? b = some e ∧ e.owner ∈ dead := hb.mem_blocksOf
  unfold entry? at hmem ⊢
  rw [hblocks]
  cases hentry : h.blocks[b.index]? with
  | none => rfl
  | some e =>
    rw [hentry, Option.filter_some] at hmem
    rw [Option.map_some, Option.filter_some, Option.filter_some]
    obtain ⟨block, owner, alive⟩ := e
    cases alive with
    | false => rfl
    | true =>
      have hmem' : b ∈ h.blocksOf dead ↔ owner ∈ dead := by simpa using hmem
      by_cases howner : owner ∈ dead
      · simp [hmem', howner, Option.filter_some]
      · simp [hmem', howner, Option.filter_some]

theorem isOwned_removeComponent (hb : h.BlocksAgree) (owner : ComponentId) (n : String)
    (b : BlockId) : h'.IsOwned owner n b ↔ h.IsOwned owner n b ∧ owner ∉ dead := by
  unfold IsOwned
  rw [entry?_removeComponent he hdead hb]
  constructor
  · rintro ⟨e, hentry, rfl, rfl⟩
    obtain ⟨hentry, hmem⟩ := Option.filter_eq_some_iff.1 hentry
    exact ⟨⟨e, hentry, rfl, rfl⟩, of_decide_eq_true hmem⟩
  · rintro ⟨⟨e, hentry, rfl, rfl⟩, hmem⟩
    exact ⟨e, Option.filter_eq_some_iff.2 ⟨hentry, decide_eq_true hmem⟩, rfl, rfl⟩

theorem BlocksAgree.removeComponent (hb : h.BlocksAgree) : h'.BlocksAgree where
  blocks := by
    intro d node' hnode' n b
    obtain ⟨hmem, old, hold, -, -, hblocks⟩ := component?_removeComponent he hdead hnode'
    rw [isOwned_removeComponent he hdead hb, hblocks, hb.blocks hold]
    simp [hmem]
  owner_lt := by
    obtain ⟨-, _, -, hsize, -, hblocks, -⟩ := removeComponent_effect he hdead
    intro i e hentry
    rw [hblocks] at hentry
    obtain ⟨old, hold, rfl⟩ := Option.map_eq_some_iff.1 hentry
    have hlt := hb.owner_lt hold
    rw [hsize]
    exact hlt
  alive := by
    obtain ⟨-, _, -, -, -, hblocks, -⟩ := removeComponent_effect he hdead
    intro i e hentry
    rw [isSome_component?_removeComponent he hdead]
    rw [hblocks] at hentry
    obtain ⟨old, hold, rfl⟩ := Option.map_eq_some_iff.1 hentry
    show (old.alive && decide (⟨i⟩ ∉ h.blocksOf dead)) = true ↔ old.owner ∉ dead ∧ _
    rw [Bool.and_eq_true, decide_eq_true_eq, ← hb.alive hold, hb.mem_blocksOf, and_comm]
    refine and_congr_left fun halive => not_congr ?_
    have hfound : h.entry? ⟨i⟩ = some old := Option.filter_eq_some_iff.2 ⟨hold, halive⟩
    simp [hfound]

theorem ConstraintsAgree.removeComponent (hb : h.BlocksAgree) (hc : h.ConstraintsAgree) :
    h'.ConstraintsAgree where
  related := by
    obtain ⟨-, _, -, -, -, -, hconstraints, -⟩ := removeComponent_effect he hdead
    intro k owner hk
    rw [hconstraints, OrderedMap.find?_filter] at hk
    obtain ⟨hk, hstale⟩ := Option.filter_eq_some_iff.1 hk
    have hfresh : ¬ (owner ∈ dead ∨ k.before ∈ h.blocksOf dead ∨ k.after ∈ h.blocksOf dead) := by
      simpa [stale] using hstale
    rw [not_or, not_or] at hfresh
    obtain ⟨howner, hbefore, hafter⟩ := hfresh
    obtain ⟨hne, hbefore', hafter', howner'⟩ := hc.related hk
    -- a block that is not of the subtree lives on
    have hkeep : ∀ b, b ∉ h.blocksOf dead → (h.entry? b).isSome → (h'.entry? b).isSome := by
      intro b hmem hlive
      obtain ⟨e, hentry⟩ := Option.isSome_iff_exists.1 hlive
      rw [hb.mem_blocksOf] at hmem
      have hout : e.owner ∉ dead := fun hin => hmem ⟨e, hentry, hin⟩
      rw [entry?_removeComponent he hdead hb, hentry, Option.filter_some,
        if_pos (decide_eq_true hout)]
      rfl
    exact ⟨hne, hkeep _ hbefore hbefore', hkeep _ hafter hafter',
      (isSome_component?_removeComponent he hdead owner).2 ⟨howner, howner'⟩⟩
  declared := by
    obtain ⟨-, _, -, -, hcomponent, -, hconstraints, -⟩ := removeComponent_effect he hdead
    intro d node' hnode'
    obtain ⟨hmem, old, hold, -⟩ := component?_removeComponent he hdead hnode'
    rw [hcomponent, if_neg hmem, hold] at hnode'
    obtain rfl := Option.some.inj hnode'
    show old.constraints.filter (fun k => !stale dead (h.blocksOf dead) k d) = _
    rw [hc.declared hold, hconstraints, List.filter_map]
    show _ = ((h.constraints.entries.filter fun e =>
      !stale dead (h.blocksOf dead) e.1 e.2).filter fun e => e.2 = d).map Prod.fst
    rw [List.filter_filter, List.filter_filter]
    congr 1
    refine List.filter_congr fun e _ => ?_
    by_cases hed : e.2 = d
    · simp [hed, Function.comp_apply]
    · simp [hed]

theorem Invariant.removeComponent (hh : h.Invariant) : h'.Invariant :=
  ⟨hh.tree.removeComponent he hdead, hh.blocks.removeComponent he hdead,
    hh.constraints.removeComponent he hdead hh.blocks⟩

end RemoveComponent

end Hierarchy

end Cyclewise
