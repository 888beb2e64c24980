import Cyclewise.Block.Stock
import Cyclewise.Hierarchy.History
import Cyclewise.Proofs.Arrays
import Cyclewise.Proofs.Hierarchy.Calls

/-!
# Edits in place

A script that makes its changes one by one ends as the edit that checks all before it changes
anything, and leaves the hierarchy as it was when it is refused (`Built.run_script`).  For a removal
this needs that whatever a component holds, dead or alive, is recorded for it among all constraints
(`Built.recorded`): the script takes back the constraints that it finds there.  So after any
operations a request is atomic and counts as one edit (`requests_atomic`).
-/

namespace Cyclewise

namespace Hierarchy

variable {μ : Type} {h h' : Hierarchy μ}

/-- How a script ends that changes nothing before its last check: as the edit does, and a refused
one on the hierarchy that it began with. -/
def settled {α : Type} (h : Hierarchy μ) :
    Except HierarchyError (α × Hierarchy μ) → EStateM.Result HierarchyError (Hierarchy μ) α
  | .ok (a, h') => .ok a h'
  | .error e => .error e h

/-! ## Running scripts -/

/-- A check at the start ends both the script and the edit. -/
theorem run_check {α β : Type} {result : Except HierarchyError α} {s : α → Script μ β}
    {g : α → Except HierarchyError (β × Hierarchy μ)}
    (hs : ∀ a, result = .ok a → (s a).run h = h.settled (g a)) :
    (ofExcept result >>= s).run h = h.settled (result >>= g) := by
  cases result with
  | error e => rfl
  | ok a => exact hs a rfl

/-- A script begins by looking at the hierarchy. -/
theorem run_get {α : Type} (s : Hierarchy μ → Script μ α) (h : Hierarchy μ) :
    (get >>= s).run h = (s h).run h := rfl

/-- A loop of changes ends in the last one. -/
theorem run_forM_modify {κ : Type} (f : Hierarchy μ → κ → Hierarchy μ) (ks : List κ)
    (h : Hierarchy μ) :
    (ks.forM fun k => modify (f · k) : Script μ PUnit).run h = .ok ⟨⟩ (ks.foldl f h) := by
  induction ks generalizing h with
  | nil => rfl
  | cons k ks ih => exact ih (f h k)

theorem run_addComponent (h : Hierarchy μ) (parent : ComponentId) (name : String) :
    (Script.addComponent parent name).run h = h.settled (h.addComponent parent name) := by
  unfold Script.addComponent addComponent
  refine run_check fun node _ => ?_
  by_cases hname : node.children.contains name = true
  · rw [if_pos hname, if_pos hname]
    rfl
  · rw [if_neg hname, if_neg hname]
    rfl

theorem run_registerBlock (h : Hierarchy μ) (owner : ComponentId) (block : UpdateBlock μ) :
    (Script.registerBlock owner block).run h = h.settled (h.registerBlock owner block) := by
  unfold Script.registerBlock registerBlock
  refine run_check fun node _ => ?_
  by_cases hname : node.blocks.contains block.name = true
  · rw [if_pos hname, if_pos hname]
    rfl
  · rw [if_neg hname, if_neg hname]
    rfl

/-! ## Loops of changes -/

attribute [ext] Hierarchy

theorem entries_foldl_erase {κ α : Type} [DecidableEq κ] (ks : List κ) (m : OrderedMap κ α) :
    (ks.foldl OrderedMap.erase m).entries = m.entries.filter fun e => e.1 ∉ ks := by
  induction ks generalizing m with
  | nil => simp
  | cons k ks ih =>
    rw [List.foldl_cons, ih]
    show (m.entries.filter fun e => e.1 ≠ k).filter _ = _
    rw [List.filter_filter]
    refine List.filter_congr fun e _ => ?_
    simp [Bool.and_comm]

/-! ## What components hold -/

/-- The constraints that a component holds, dead or alive. -/
def heldBy (h : Hierarchy μ) (c : ComponentId) : List Constraint :=
  ((h.components[c.index]?).map Component.constraints).getD []

/-- What a component holds is recorded for it among all constraints. -/
def Recorded (h : Hierarchy μ) : Prop :=
  ∀ c, ∀ k ∈ h.heldBy c, h.constraints.find? k = some c

theorem map_constraints_modify {f : Component → Component}
    (hf : ∀ node, (f node).constraints = node.constraints) (xs : Array Component) (i j : Nat) :
    ((xs.modify i f)[j]?).map Component.constraints = (xs[j]?).map Component.constraints := by
  rw [Array.getElem?_modify]
  split
  · rw [Option.map_map]
    exact Option.map_congr fun node _ => hf node
  · rfl

theorem heldBy_addComponent {parent c : ComponentId} {name : String}
    (he : h.addComponent parent name = .ok (c, h')) (d : ComponentId) :
    h'.heldBy d = h.heldBy d := by
  simp only [addComponent, bind, Except.bind] at he
  split at he
  · cases he
  · split at he
    · cases he
    · obtain ⟨-, rfl⟩ := Prod.mk.inj (Except.ok.inj he)
      show (Option.map _ ((Array.modify _ _ _)[d.index]?)).getD [] = _
      rw [map_constraints_modify (fun _ => by rfl), Array.getElem?_push]
      unfold heldBy
      split
      · next hd =>
        rw [Array.getElem?_eq_none (Nat.le_of_eq hd.symm)]
        rfl
      · rfl

theorem heldBy_registerBlock {owner : ComponentId} {block : UpdateBlock μ} {b : BlockId}
    (he : h.registerBlock owner block = .ok (b, h')) (d : ComponentId) :
    h'.heldBy d = h.heldBy d := by
  simp only [registerBlock, bind, Except.bind] at he
  split at he
  · cases he
  · split at he
    · cases he
    · obtain ⟨-, rfl⟩ := Prod.mk.inj (Except.ok.inj he)
      show (Option.map _ ((Array.modify _ _ _)[d.index]?)).getD [] = _
      rw [map_constraints_modify (fun _ => by rfl)]
      rfl

theorem heldBy_removeComponent {c : ComponentId} (he : h.removeComponent c = .ok h')
    (d : ComponentId) :
    h'.heldBy d =
      (h.heldBy d).filter fun k => !stale (h.subtree c) (h.blocksOf (h.subtree c)) k d := by
  simp only [removeComponent, bind, Except.bind] at he
  split at he
  · cases he
  · split at he
    · cases he
    · obtain rfl := Except.ok.inj he
      show (Option.map _ ((Array.mapIdx _ _)[d.index]?)).getD [] = _
      rw [Array.getElem?_mapIdx]
      unfold heldBy
      cases h.components[d.index]? <;> rfl

theorem heldBy_addConstraints {owner : ComponentId} {pairs : List Constraint}
    (he : h.addConstraints owner pairs = .ok h') {d : ComponentId} {k : Constraint}
    (hk : k ∈ h'.heldBy d) : k ∈ h.heldBy d ∨ d = owner ∧ k ∈ pairs := by
  simp only [addConstraints, bind, Except.bind] at he
  split at he
  · cases he
  · split at he
    · cases he
    · next accepted hc =>
      obtain rfl : accepted = pairs := checkConstraints_eq_ok hc
      split at he
      · obtain rfl := Except.ok.inj he
        exact .inl hk
      · obtain rfl := Except.ok.inj he
        change k ∈ (Option.map _ ((Array.modify _ _ _)[d.index]?)).getD [] at hk
        unfold heldBy
        rw [Array.getElem?_modify] at hk
        split at hk
        · next hd =>
          cases hnode : h.components[d.index]? with
          | none =>
            rw [hnode] at hk
            cases hk
          | some node =>
            rw [hnode] at hk
            rcases List.mem_append.1 hk with hk | hk
            · exact .inl hk
            · exact .inr ⟨(congrArg ComponentId.mk hd).symm, hk⟩
        · exact .inl hk

theorem Built.recorded (hh : h.Built) : h.Recorded := by
  induction hh with
  | new top =>
    intro c k hk
    unfold heldBy at hk
    obtain ⟨_ | i⟩ := c
    · cases hk
    · cases hk
  | addComponent _ he ih =>
    obtain ⟨-, -, -, -, -, -, -, hconstraints⟩ := addComponent_effect he
    intro c k hk
    rw [heldBy_addComponent he] at hk
    rw [hconstraints, ih c k hk]
  | registerBlock _ he ih =>
    obtain ⟨-, -, -, -, -, -, -, hconstraints⟩ := registerBlock_effect he
    intro c k hk
    rw [heldBy_registerBlock he] at hk
    rw [hconstraints, ih c k hk]
  | removeComponent _ he ih =>
    obtain ⟨-, -, -, -, -, -, hconstraints, -⟩ := removeComponent_effect he rfl
    intro c k hk
    rw [heldBy_removeComponent he] at hk
    obtain ⟨hk, hstale⟩ := List.mem_filter.1 hk
    rw [hconstraints, OrderedMap.find?_filter, ih c k hk]
    exact Option.filter_eq_some_iff.2 ⟨rfl, hstale⟩
  | addConstraints _ he ih =>
    obtain ⟨-, -, -, -, -, hentries⟩ := addConstraints_effect he
    intro c k hk
    rw [← OrderedMap.mem_entries_iff, hentries, List.mem_append]
    rcases heldBy_addConstraints he hk with hk | ⟨rfl, hk⟩
    · exact .inl (OrderedMap.mem_entries_iff.2 (ih c k hk))
    · exact .inr (List.mem_map.2 ⟨k, hk, rfl⟩)
  | aggregate _ ih => exact ih

/-! ## Declaring constraints -/

theorem foldl_declare (h : Hierarchy μ) (owner : ComponentId) (ks : List Constraint) :
    ks.foldl (declare · · owner) h =
      { h with
        components := ks.foldl (fun xs k => xs.modify owner.index (·.enter k)) h.components
        constraints := ks.foldl (fun m k => m.insert k owner) h.constraints } := by
  induction ks generalizing h with
  | nil => rfl
  | cons k ks ih => exact ih (h.declare k owner)

/-- Constraints that are not entered yet are entered at the end. -/
theorem foldl_enter {node : Component} {ks : List Constraint}
    (h : (node.constraints ++ ks).Nodup) :
    ks.foldl Component.enter node = { node with constraints := node.constraints ++ ks } := by
  induction ks generalizing node with
  | nil => simp
  | cons k ks ih =>
    have hk : k ∉ node.constraints := fun hk =>
      (List.nodup_append.1 h).2.2 k hk k List.mem_cons_self rfl
    have henter : node.enter k = { node with constraints := node.constraints ++ [k] } := by
      unfold Component.enter
      rw [if_neg hk]
    rw [List.append_cons] at h
    rw [List.foldl_cons, henter, ih h, List.append_assoc, List.singleton_append]

/-- Accepted constraints are new to the component that declares them. -/
theorem Built.nodup_append_accepted (hh : h.Built) {owner : ComponentId} {node : Component}
    (hnode : h.component? owner = some node) {pairs accepted : List Constraint}
    (hc : h.checkConstraints owner [] pairs = .ok accepted) :
    (node.constraints ++ accepted).Nodup := by
  obtain ⟨heach, hnodup⟩ := checkConstraints_each hc
  obtain rfl : accepted = pairs := checkConstraints_eq_ok hc
  rw [hh.invariant.constraints.declared hnode]
  refine List.nodup_append.2 ⟨?_, hnodup List.nodup_nil, ?_⟩
  · exact h.constraints.nodup_keys.sublist (List.filter_sublist.map _)
  · rintro k hk k' hk' rfl
    obtain ⟨⟨k, c⟩, hentry, rfl⟩ := List.mem_map.1 hk
    have hfind := OrderedMap.mem_entries_iff.1 (List.mem_filter.1 hentry).1
    rw [(checkConstraint_eq_ok (heach k hk')).2.2.2] at hfind
    cases hfind

/-- The owner of new constraints has them at the end. -/
theorem foldl_enter_modify {owner : ComponentId} {node : Component}
    (hnode : h.component? owner = some node) {ks : List Constraint}
    (hks : (node.constraints ++ ks).Nodup) :
    ks.foldl (fun xs k => xs.modify owner.index (·.enter k)) h.components =
      h.components.modify owner.index fun c => { c with constraints := c.constraints ++ ks } := by
  obtain ⟨hfind, -⟩ := Option.filter_eq_some_iff.1 hnode
  apply Array.ext_getElem?
  intro i
  rw [getElem?_foldl_modify (fun _ => owner.index), Array.getElem?_modify]
  by_cases hi : owner.index = i
  · subst hi
    simp only [if_true, hfind, Option.map_some]
    exact congrArg some (foldl_enter hks)
  · simp [hi]

theorem Built.run_addConstraints (hh : h.Built) (owner : ComponentId) (pairs : List Constraint) :
    (Script.addConstraints owner pairs).run h =
      h.settled (Prod.mk () <$> h.addConstraints owner pairs) := by
  unfold Script.addConstraints Hierarchy.addConstraints
  rw [map_bind]
  refine run_check fun node hnode => ?_
  rw [map_bind]
  refine run_check fun accepted haccepted => ?_
  by_cases hempty : accepted.isEmpty = true
  · rw [if_pos hempty, if_pos hempty]
    rfl
  · have howner := component_eq_ok hnode
    have hentered := foldl_enter_modify howner (hh.nodup_append_accepted howner haccepted)
    rw [if_neg hempty, if_neg hempty, EStateM.run_bind, run_forM_modify, foldl_declare, hentered]
    rfl

/-! ## Removing a subtree -/

theorem foldl_change_die (h : Hierarchy μ) (dead : List ComponentId) :
    dead.foldl (change · · Component.die) h =
      { h with
        components := dead.foldl (fun xs d => xs.modify d.index Component.die) h.components } := by
  induction dead generalizing h with
  | nil => rfl
  | cons d dead ih => exact ih (h.change d Component.die)

theorem foldl_killBlock (h : Hierarchy μ) (dead : List BlockId) :
    dead.foldl killBlock h =
      { h with blocks := dead.foldl (fun xs b => xs.modify b.index BlockEntry.die) h.blocks } := by
  induction dead generalizing h with
  | nil => rfl
  | cons b dead ih => exact ih (h.killBlock b)

theorem foldl_retract (h : Hierarchy μ) (es : List (Constraint × ComponentId)) :
    es.foldl (fun h e => h.retract e.1 e.2) h =
      { h with
        components := es.foldl (fun xs e => xs.modify e.2.index (·.withdraw e.1)) h.components
        constraints := (es.map Prod.fst).foldl OrderedMap.erase h.constraints } := by
  induction es generalizing h with
  | nil => rfl
  | cons e es ih => exact ih (h.retract e.1 e.2)

theorem foldl_die (dead : List ComponentId) (i : Nat) (node : Component) :
    dead.foldl (fun node d => if d.index = i then node.die else node) node =
      { node with alive := node.alive && decide (⟨i⟩ ∉ dead) } := by
  induction dead generalizing node with
  | nil => simp
  | cons d dead ih =>
    obtain ⟨j⟩ := d
    rw [List.foldl_cons, ih]
    by_cases hj : j = i
    · simp [hj, Component.die]
    · simp [hj, Ne.symm hj]

theorem foldl_die_block (dead : List BlockId) (i : Nat) (e : BlockEntry μ) :
    dead.foldl (fun e b => if b.index = i then e.die else e) e =
      { e with alive := e.alive && decide (⟨i⟩ ∉ dead) } := by
  induction dead generalizing e with
  | nil => simp
  | cons b dead ih =>
    obtain ⟨j⟩ := b
    rw [List.foldl_cons, ih]
    by_cases hj : j = i
    · simp [hj, BlockEntry.die]
    · simp [hj, Ne.symm hj]

theorem foldl_withdraw (es : List (Constraint × ComponentId)) (i : Nat) (node : Component) :
    es.foldl (fun node e => if e.2.index = i then node.withdraw e.1 else node) node =
      { node with constraints := node.constraints.filter fun k => (k, ⟨i⟩) ∉ es } := by
  induction es generalizing node with
  | nil => simp
  | cons e es ih =>
    obtain ⟨k, ⟨j⟩⟩ := e
    rw [List.foldl_cons, ih]
    by_cases hj : j = i
    · subst hj
      simp [Component.withdraw, List.filter_filter, Bool.and_comm]
    · simp [hj, Ne.symm hj]

section Stale

variable {dead : List ComponentId} {deadBlocks : List BlockId} {k : Constraint} {c : ComponentId}

theorem mem_staleEntries (hk : h.constraints.find? k = some c) :
    (k, c) ∈ h.staleEntries dead deadBlocks ↔ stale dead deadBlocks k c = true := by
  unfold staleEntries
  rw [List.mem_filter, OrderedMap.mem_entries_iff]
  exact and_iff_right hk

theorem mem_keys_staleEntries (hk : h.constraints.find? k = some c) :
    k ∈ (h.staleEntries dead deadBlocks).map Prod.fst ↔ stale dead deadBlocks k c = true := by
  rw [← mem_staleEntries hk, List.mem_map]
  constructor
  · rintro ⟨⟨k, c'⟩, hmem, rfl⟩
    have hfind := OrderedMap.mem_entries_iff.1 (List.mem_filter.1 hmem).1
    obtain rfl := Option.some.inj (hfind.symm.trans hk)
    exact hmem
  · exact fun hmem => ⟨(k, c), hmem, rfl⟩

/-- Taking the stale constraints back one by one leaves the others. -/
theorem foldl_erase_stale (h : Hierarchy μ) (dead : List ComponentId)
    (deadBlocks : List BlockId) :
    ((h.staleEntries dead deadBlocks).map Prod.fst).foldl OrderedMap.erase h.constraints =
      h.constraints.filter fun k owner => !stale dead deadBlocks k owner := by
  ext1
  rw [entries_foldl_erase]
  refine List.filter_congr fun e he => ?_
  rw [decide_not, Bool.not_inj_iff, Bool.eq_iff_iff, decide_eq_true_iff]
  exact mem_keys_staleEntries (OrderedMap.mem_entries_iff.1 he)

/-- What a component loses when the stale constraints are taken back one by one. -/
theorem Built.filter_stale (hh : h.Built) {node : Component}
    (hnode : h.components[c.index]? = some node) :
    (node.constraints.filter fun k => (k, c) ∉ h.staleEntries dead deadBlocks) =
      node.constraints.filter fun k => !stale dead deadBlocks k c := by
  refine List.filter_congr fun k hk => ?_
  have hheld : k ∈ h.heldBy c := by
    unfold heldBy
    rw [hnode]
    exact hk
  rw [decide_not, Bool.not_inj_iff, Bool.eq_iff_iff, decide_eq_true_iff]
  exact mem_staleEntries (hh.recorded c k hheld)

end Stale

/-- The hierarchy when all have died and all stale constraints are taken back. -/
theorem Built.foldl_retract_stale (hh : h.Built) (dead : List ComponentId)
    (deadBlocks : List BlockId) :
    (h.staleEntries dead deadBlocks).foldl (fun h e => h.retract e.1 e.2)
        (deadBlocks.foldl killBlock (dead.foldl (change · · Component.die) h)) =
      { h with
        components := h.components.mapIdx fun i node =>
          { node with
            alive := node.alive && decide (⟨i⟩ ∉ dead)
            constraints := node.constraints.filter fun k => !stale dead deadBlocks k ⟨i⟩ }
        blocks := h.blocks.mapIdx fun i e =>
          { e with alive := e.alive && decide (⟨i⟩ ∉ deadBlocks) }
        constraints := h.constraints.filter fun k owner => !stale dead deadBlocks k owner } := by
  rw [foldl_change_die, foldl_killBlock, foldl_retract]
  ext1
  · apply Array.ext_getElem?
    intro i
    show ((h.staleEntries dead deadBlocks).foldl
      (fun xs e => xs.modify e.2.index (·.withdraw e.1))
      (dead.foldl (fun xs d => xs.modify d.index Component.die) h.components))[i]? = _
    rw [getElem?_foldl_modify (fun e : Constraint × ComponentId => e.2.index)
        (fun e (node : Component) => node.withdraw e.1),
      getElem?_foldl_modify ComponentId.index (fun _ => Component.die), Option.map_map,
      Array.getElem?_mapIdx]
    refine Option.map_congr fun node hnode => ?_
    rw [Function.comp_apply, foldl_die, foldl_withdraw, ← hh.filter_stale hnode]
  · apply Array.ext_getElem?
    intro i
    show (deadBlocks.foldl (fun xs b => xs.modify b.index BlockEntry.die) h.blocks)[i]? = _
    rw [getElem?_foldl_modify BlockId.index (fun _ => BlockEntry.die), Array.getElem?_mapIdx]
    exact Option.map_congr fun e _ => foldl_die_block deadBlocks i e
  · exact foldl_erase_stale h dead deadBlocks
  · rfl
  · rfl

theorem Built.run_removeComponent (hh : h.Built) (c : ComponentId) :
    (Script.removeComponent c).run h = h.settled (Prod.mk () <$> h.removeComponent c) := by
  unfold Script.removeComponent Hierarchy.removeComponent
  by_cases hc : c = top
  · rw [if_pos hc, if_pos hc]
    rfl
  · rw [if_neg hc, if_neg hc, map_bind]
    refine run_check fun node _ => ?_
    simp only [EStateM.run_bind, run_forM_modify, hh.foldl_retract_stale]
    cases hparent : node.parent with
    | none =>
      refine congrArg (EStateM.Result.ok ()) (congrArg touch ?_)
      simp only [reduceCtorEq, if_false]
    | some p =>
      refine congrArg (EStateM.Result.ok ()) (congrArg touch ?_)
      unfold change
      dsimp only
      rw [modify_mapIdx]
      congr 2
      funext i node'
      by_cases hi : i = p.index
      · subst hi
        simp
      · have hne : ¬ some p = some ⟨i⟩ := by
          intro hp
          exact hi (congrArg ComponentId.index (Option.some.inj hp)).symm
        rw [if_neg hi, if_neg hne]

/-! ## Requests -/

/-- A script that is followed by a function of its result. -/
theorem run_map {α β : Type} {s : Script μ α} {result : Except HierarchyError (α × Hierarchy μ)}
    (f : α → β) (hs : s.run h = h.settled result) :
    (f <$> s).run h = h.settled (Prod.map f id <$> result) := by
  rw [map_eq_pure_bind, EStateM.run_bind, hs]
  cases result <;> rfl

/-- A script without a result. -/
theorem run_map_unit {s : Script μ Unit} {result : Except HierarchyError (Hierarchy μ)} {α : Type}
    (a : α) (hs : s.run h = h.settled (Prod.mk () <$> result)) :
    ((fun _ => a) <$> s).run h = h.settled (Prod.mk a <$> result) := by
  rw [run_map (fun _ => a) hs]
  cases result <;> rfl

theorem Built.run_removeComponentNamed (hh : h.Built) (parent : ComponentId) (name : String) :
    (Script.removeComponentNamed parent name).run h =
      h.settled (Prod.mk () <$> h.removeComponentNamed parent name) := by
  unfold Script.removeComponentNamed Hierarchy.removeComponentNamed
  rw [run_get]
  cases h.childNamed? parent name with
  | none => rfl
  | some c => exact hh.run_removeComponent c

/-- An edit in place ends as the edit does that is checked in full before. -/
theorem Built.run_script (hh : h.Built) (r : Request μ) :
    r.script.run h = h.settled (r.edit h) := by
  cases r with
  | addComponent parent name => exact run_map _ (run_addComponent h parent name)
  | removeComponent c => exact run_map_unit _ (hh.run_removeComponent c)
  | removeComponentNamed parent name =>
    exact run_map_unit _ (hh.run_removeComponentNamed parent name)
  | registerBlock owner block => exact run_map _ (run_registerBlock h owner block)
  | addConstraint owner before after => exact run_map_unit _ (hh.run_addConstraints owner _)
  | addConstraints owner pairs => exact run_map_unit _ (hh.run_addConstraints owner pairs)

/-! ## Granted requests -/

theorem map_eq_ok {ε α β : Type} {f : α → β} {result : Except ε α} {b : β}
    (h : f <$> result = .ok b) : ∃ a, result = .ok a ∧ f a = b := by
  cases result with
  | error e => cases h
  | ok a => exact ⟨a, rfl, Except.ok.inj h⟩

/-- The edit behind a request that was granted. -/
inductive Grants (h : Hierarchy μ) : Request μ → Hierarchy μ → Prop where
  | addComponent {h' parent name c} (he : h.addComponent parent name = .ok (c, h')) :
    Grants h (.addComponent parent name) h'
  | removeComponent {h' c} (he : h.removeComponent c = .ok h') : Grants h (.removeComponent c) h'
  | removeComponentNamed {h' parent name c} (he : h.removeComponent c = .ok h') :
    Grants h (.removeComponentNamed parent name) h'
  | registerBlock {h' owner block b} (he : h.registerBlock owner block = .ok (b, h')) :
    Grants h (.registerBlock owner block) h'
  | addConstraint {h' owner before after}
    (he : h.addConstraints owner [⟨before, after⟩] = .ok h') :
    Grants h (.addConstraint owner before after) h'
  | addConstraints {h' owner pairs} (he : h.addConstraints owner pairs = .ok h') :
    Grants h (.addConstraints owner pairs) h'

theorem grants_of_edit {r : Request μ} {grant : Grant} (he : r.edit h = .ok (grant, h')) :
    h.Grants r h' := by
  cases r with
  | addComponent parent name =>
    obtain ⟨⟨c, k⟩, hk, heq⟩ := map_eq_ok he
    obtain ⟨-, rfl⟩ := Prod.mk.inj heq
    exact .addComponent hk
  | removeComponent c =>
    obtain ⟨k, hk, heq⟩ := map_eq_ok he
    obtain ⟨-, rfl⟩ := Prod.mk.inj heq
    exact .removeComponent hk
  | removeComponentNamed parent name =>
    obtain ⟨k, hk, heq⟩ := map_eq_ok he
    obtain ⟨-, rfl⟩ := Prod.mk.inj heq
    unfold removeComponentNamed at hk
    split at hk
    · exact .removeComponentNamed hk
    · cases hk
  | registerBlock owner block =>
    obtain ⟨⟨b, k⟩, hk, heq⟩ := map_eq_ok he
    obtain ⟨-, rfl⟩ := Prod.mk.inj heq
    exact .registerBlock hk
  | addConstraint owner before after =>
    obtain ⟨k, hk, heq⟩ := map_eq_ok he
    obtain ⟨-, rfl⟩ := Prod.mk.inj heq
    exact .addConstraint hk
  | addConstraints owner pairs =>
    obtain ⟨k, hk, heq⟩ := map_eq_ok he
    obtain ⟨-, rfl⟩ := Prod.mk.inj heq
    exact .addConstraints hk

/-- Whether a request asks for nothing: an empty list of constraints. -/
def Request.isIdle : Request μ → Bool
  | addConstraints _ pairs => pairs.isEmpty
  | _ => false

namespace Grants

variable {r : Request μ} (hg : h.Grants r h')

include hg

theorem built (hh : h.Built) : h'.Built := by
  cases hg with
  | addComponent he => exact hh.addComponent he
  | removeComponent he => exact hh.removeComponent he
  | removeComponentNamed he => exact hh.removeComponent he
  | registerBlock he => exact hh.registerBlock he
  | addConstraint he => exact hh.addConstraints he
  | addConstraints he => exact hh.addConstraints he

/-- A request counts as one edit, unless it asks for nothing. -/
theorem touched : (r.isIdle = true ∧ h' = h) ∨ (r.isIdle = false ∧ h.Touched h') := by
  cases hg with
  | addComponent he => exact .inr ⟨rfl, addComponent_eq_ok he⟩
  | removeComponent he => exact .inr ⟨rfl, removeComponent_eq_ok he⟩
  | removeComponentNamed he => exact .inr ⟨rfl, removeComponent_eq_ok he⟩
  | registerBlock he => exact .inr ⟨rfl, registerBlock_eq_ok he⟩
  | addConstraint he =>
    rcases addConstraints_eq_ok he with ⟨hnil, -⟩ | ⟨-, ht⟩
    · cases hnil
    · exact .inr ⟨rfl, ht⟩
  | addConstraints he =>
    rcases addConstraints_eq_ok he with ⟨rfl, rfl⟩ | ⟨hne, ht⟩
    · exact .inl ⟨rfl, rfl⟩
    · exact .inr ⟨List.isEmpty_eq_false_iff.2 hne, ht⟩

end Grants

/-! ## Any operations -/

/-- A request is granted, as one edit, or it leaves no trace. -/
theorem Built.request_cases (hh : h.Built) (r : Request μ) :
    (∃ grant h', r.edit h = .ok (grant, h') ∧ h.request r = (.ok grant, h')) ∨
      ∃ e, r.edit h = .error e ∧ h.request r = (.error e, h) := by
  unfold request
  rw [hh.run_script]
  cases hr : r.edit h with
  | ok result => exact .inl ⟨result.1, result.2, rfl, rfl⟩
  | error e => exact .inr ⟨e, rfl, rfl⟩

theorem Built.perform (hh : h.Built) (op : Operation μ) : (h.perform op).2.Built := by
  cases op with
  | request r =>
    show (h.request r).2.Built
    rcases hh.request_cases r with ⟨grant, k, he, hrequest⟩ | ⟨e, -, hrequest⟩
    · rw [hrequest]
      exact (grants_of_edit he).built hh
    · rw [hrequest]
      exact hh
  | ask q => exact hh
  | aggregate => exact hh.aggregate

theorem Built.performAll (hh : h.Built) (ops : List (Operation μ)) :
    (h.performAll ops).2.Built := by
  induction ops generalizing h with
  | nil => exact hh
  | cons op rest ih => exact ih (hh.perform op)

theorem built_after (top : String) (ops : List (Operation μ)) : (after top ops).Built :=
  (Built.new top).performAll ops

/-- A request is done in place as it is when all is checked before anything changes. -/
structure Atomic (h : Hierarchy μ) (r : Request μ) : Prop where
  agrees : r.script.run h = h.settled (r.edit h)
  /-- A refusal leaves no trace. -/
  refused : ∀ e h', r.script.run h = .error e h' → h' = h
  counted : ∀ grant h', r.script.run h = .ok grant h' → r.isIdle = false →
    h'.revision = h.revision + 1
  idle : ∀ grant h', r.script.run h = .ok grant h' → r.isIdle = true → h' = h

theorem Built.atomic (hh : h.Built) (r : Request μ) : h.Atomic r := by
  have hagrees := hh.run_script r
  cases hr : r.edit h with
  | error e =>
    have hrun : r.script.run h = .error e h := by rw [hagrees, hr]; rfl
    refine ⟨hagrees, fun e' h' he => ?_, fun grant h' he => ?_, fun grant h' he => ?_⟩
    · rw [hrun] at he
      exact (EStateM.Result.error.inj he).2.symm
    · rw [hrun] at he
      cases he
    · rw [hrun] at he
      cases he
  | ok result =>
    obtain ⟨grant, k⟩ := result
    have hrun : r.script.run h = .ok grant k := by rw [hagrees, hr]; rfl
    have htouched := (grants_of_edit hr).touched
    refine ⟨hagrees, fun e h' he => ?_, fun grant' h' he hidle => ?_, fun grant' h' he hidle => ?_⟩
    · rw [hrun] at he
      cases he
    · rw [hrun] at he
      obtain ⟨-, rfl⟩ := EStateM.Result.ok.inj he
      rcases htouched with ⟨htrue, -⟩ | ⟨-, ht⟩
      · rw [hidle] at htrue
        cases htrue
      · exact ht.revision
    · rw [hrun] at he
      obtain ⟨-, rfl⟩ := EStateM.Result.ok.inj he
      rcases htouched with ⟨-, heq⟩ | ⟨hfalse, -⟩
      · exact heq
      · rw [hidle] at hfalse
        cases hfalse

/-- **Atomic edits.**  Whatever was done with a hierarchy, a request that is refused leaves it as it
was, and one that is granted counts up the revision by one, except for an empty list of constraints,
which changes nothing. -/
theorem requests_atomic (top : String) (ops : List (Operation μ)) (r : Request μ) :
    (after top ops).Atomic r :=
  (built_after top ops).atomic r

/-- Of a batch that repeats a constraint nothing is entered. -/
example : ((new "top" : Hierarchy Unit).performAll
    [.request (.registerBlock top (.copy "a" ⟨0⟩ ⟨1⟩)),
      .request (.registerBlock top (.copy "b" ⟨1⟩ ⟨2⟩)),
      .request (.addConstraints top [⟨⟨0⟩, ⟨1⟩⟩, ⟨⟨0⟩, ⟨1⟩⟩]), .ask .revision, .aggregate]).1 =
    [.result (.ok (.block ⟨0⟩)), .result (.ok (.block ⟨1⟩)),
      .result (.error (.duplicateConstraint "a" "b" "top")), .answer (.number 2),
      .aggregate ⟨[(⟨0⟩, top), (⟨1⟩, top)], []⟩] := by
  rfl

end Hierarchy

end Cyclewise
