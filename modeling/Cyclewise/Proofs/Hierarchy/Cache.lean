import Cyclewise.Proofs.Hierarchy.Scripts

/-!
# The cache of the aggregate

The aggregate is taken from the cache where that is filled.  No edit and no look-up depends on the
cache (`edit_bare`, `answer_bare`), so two runs that differ in the aggregates taken reply the same
to everything else (`Built.performAll_congr`).  The constraints of the aggregate are, in their order,
the declarations of the past whose component and blocks are still alive (`Ledger`).
-/

namespace Cyclewise

namespace Hierarchy

variable {μ : Type} {h h' : Hierarchy μ}

/-! ## Nothing but the aggregate looks at the cache -/

/-- A hierarchy without its cache. -/
def bare (h : Hierarchy μ) : Hierarchy μ := { h with cache := none }

theorem pathNames_bare (h : Hierarchy μ) (fuel : Nat) (c : ComponentId) :
    h.bare.pathNames fuel c = h.pathNames fuel c := by
  induction fuel generalizing c with
  | zero => rfl
  | succ fuel ih =>
    rw [pathNames, pathNames]
    refine congrArg (Option.bind (h.component? c)) (funext fun node => ?_)
    cases node.parent with
    | none => rfl
    | some p => exact congrArg (Option.map _) (ih p)

theorem path?_bare (h : Hierarchy μ) (c : ComponentId) : h.bare.path? c = h.path? c :=
  congrArg (Option.map ".".intercalate) (h.pathNames_bare h.components.size c)

theorem pathOrNumber_bare (h : Hierarchy μ) (c : ComponentId) :
    h.bare.pathOrNumber c = h.pathOrNumber c := by
  unfold pathOrNumber
  rw [path?_bare]

theorem visit_bare (h : Hierarchy μ) (p : ComponentId → Component → Bool) (fuel : Nat)
    (pending : List ComponentId) : h.bare.visit p fuel pending = h.visit p fuel pending := by
  induction fuel generalizing pending with
  | zero => rfl
  | succ fuel ih =>
    cases pending with
    | nil => rfl
    | cons c pending =>
      have hfind : h.bare.component? c = h.component? c := rfl
      rw [visit, visit, hfind]
      cases h.component? c with
      | none => exact ih pending
      | some node => exact congrArg (fun rest => if p c node then c :: rest else rest) (ih _)

theorem subtree_bare (h : Hierarchy μ) (c : ComponentId) : h.bare.subtree c = h.subtree c :=
  h.visit_bare _ h.components.size [c]

theorem answer_bare (h : Hierarchy μ) (q : Question) : h.bare.answer q = h.answer q := by
  cases q with
  | path c => exact congrArg Answer.path (h.path?_bare c)
  | collect p => exact congrArg Answer.components (h.visit_bare p h.components.size [top])
  | _ => rfl

theorem checkConstraint_bare (h : Hierarchy μ) (k : Constraint) :
    h.bare.checkConstraint k = h.checkConstraint k := by
  unfold checkConstraint duplicate
  simp only [pathOrNumber_bare]
  rfl

theorem checkConstraints_bare (h : Hierarchy μ) (owner : ComponentId)
    (accepted pairs : List Constraint) :
    h.bare.checkConstraints owner accepted pairs = h.checkConstraints owner accepted pairs := by
  induction pairs generalizing accepted with
  | nil => rfl
  | cons k rest ih =>
    rw [checkConstraints, checkConstraints, checkConstraint_bare]
    simp only [ih, duplicate, pathOrNumber_bare]
    rfl

theorem addComponent_bare (h : Hierarchy μ) (parent : ComponentId) (name : String) :
    h.bare.addComponent parent name = Prod.map id bare <$> h.addComponent parent name := by
  unfold addComponent
  rw [pathOrNumber_bare, map_bind]
  refine congrArg (bind (h.component parent)) (funext fun node => ?_)
  by_cases hname : node.children.contains name = true
  · rw [if_pos hname, if_pos hname]
    rfl
  · rw [if_neg hname, if_neg hname]
    rfl

theorem registerBlock_bare (h : Hierarchy μ) (owner : ComponentId) (block : UpdateBlock μ) :
    h.bare.registerBlock owner block = Prod.map id bare <$> h.registerBlock owner block := by
  unfold registerBlock
  rw [pathOrNumber_bare, map_bind]
  refine congrArg (bind (h.component owner)) (funext fun node => ?_)
  by_cases hname : node.blocks.contains block.name = true
  · rw [if_pos hname, if_pos hname]
    rfl
  · rw [if_neg hname, if_neg hname]
    rfl

theorem removeComponent_bare (h : Hierarchy μ) (c : ComponentId) :
    h.bare.removeComponent c = bare <$> h.removeComponent c := by
  unfold removeComponent
  rw [subtree_bare]
  by_cases hc : c = top
  · rw [if_pos hc, if_pos hc]
    rfl
  · rw [if_neg hc, if_neg hc, map_bind]
    rfl

theorem addConstraints_bare (h : Hierarchy μ) (owner : ComponentId) (pairs : List Constraint) :
    h.bare.addConstraints owner pairs = bare <$> h.addConstraints owner pairs := by
  unfold addConstraints
  rw [checkConstraints_bare, map_bind]
  refine congrArg (bind (h.component owner)) (funext fun node => ?_)
  rw [map_bind]
  refine congrArg (bind (h.checkConstraints owner [] pairs)) (funext fun accepted => ?_)
  by_cases hempty : accepted.isEmpty = true
  · rw [if_pos hempty, if_pos hempty]
    rfl
  · rw [if_neg hempty, if_neg hempty]
    rfl

theorem removeComponentNamed_bare (h : Hierarchy μ) (parent : ComponentId) (name : String) :
    h.bare.removeComponentNamed parent name = bare <$> h.removeComponentNamed parent name := by
  have hfind : h.bare.childNamed? parent name = h.childNamed? parent name := rfl
  unfold removeComponentNamed
  rw [hfind]
  cases h.childNamed? parent name with
  | none => rfl
  | some c => exact h.removeComponent_bare c

/-- The cache has no part in an edit. -/
theorem edit_bare (h : Hierarchy μ) (r : Request μ) :
    r.edit h.bare = Prod.map id bare <$> r.edit h := by
  have hpair : ∀ {α : Type} (f : α → Grant) (result : Except HierarchyError (α × Hierarchy μ)),
      Prod.map f id <$> Prod.map id bare <$> result =
        Prod.map id bare <$> Prod.map f id <$> result := by
    intro α f result
    cases result <;> rfl
  have hsingle : ∀ (grant : Grant) (result : Except HierarchyError (Hierarchy μ)),
      Prod.mk grant <$> bare <$> result = Prod.map id bare <$> Prod.mk grant <$> result := by
    intro grant result
    cases result <;> rfl
  cases r with
  | addComponent parent name => rw [Request.edit, Request.edit, addComponent_bare, hpair]
  | removeComponent c => rw [Request.edit, Request.edit, removeComponent_bare, hsingle]
  | removeComponentNamed parent name =>
    rw [Request.edit, Request.edit, removeComponentNamed_bare, hsingle]
  | registerBlock owner block => rw [Request.edit, Request.edit, registerBlock_bare, hpair]
  | addConstraint owner before after =>
    rw [Request.edit, Request.edit, addConstraint, addConstraint, addConstraints_bare, hsingle]
  | addConstraints owner pairs => rw [Request.edit, Request.edit, addConstraints_bare, hsingle]

/-! ## Runs with and without aggregates -/

variable {k : Hierarchy μ}

/-- Operations other than taking the aggregate do the same whatever the cache holds. -/
theorem Built.perform_congr (hh : h.Built) (hk : k.Built) (hbare : h.bare = k.bare)
    {op : Operation μ} (hop : op.isAggregate = false) :
    (h.perform op).1 = (k.perform op).1 ∧ (h.perform op).2.bare = (k.perform op).2.bare := by
  cases op with
  | aggregate => cases hop
  | ask q =>
    refine ⟨congrArg Reply.answer ?_, hbare⟩
    rw [← h.answer_bare, hbare, k.answer_bare]
  | request r =>
    have hedit : Prod.map id bare <$> r.edit h = Prod.map id bare <$> r.edit k := by
      rw [← edit_bare, hbare, edit_bare]
    show Reply.result (h.request r).1 = Reply.result (k.request r).1 ∧
      (h.request r).2.bare = (k.request r).2.bare
    rcases hh.request_cases r with ⟨grant, h', he, hh'⟩ | ⟨e, he, hh'⟩
    · rcases hk.request_cases r with ⟨grant', k', he', hk'⟩ | ⟨e', he', -⟩
      · rw [he, he'] at hedit
        obtain ⟨rfl, hbare'⟩ := Prod.mk.inj (Except.ok.inj hedit)
        rw [hh', hk']
        exact ⟨rfl, hbare'⟩
      · rw [he, he'] at hedit
        cases hedit
    · rcases hk.request_cases r with ⟨grant', k', he', -⟩ | ⟨e', he', hk'⟩
      · rw [he, he'] at hedit
        cases hedit
      · rw [he, he'] at hedit
        obtain rfl := Except.error.inj hedit
        rw [hh', hk']
        exact ⟨rfl, hbare⟩

/-- Only taking the aggregate gives one back. -/
theorem isAggregate_perform (h : Hierarchy μ) (op : Operation μ) :
    (h.perform op).1.isAggregate = op.isAggregate := by
  cases op <;> rfl

/-- Taking the aggregate or not makes no difference for the other operations. -/
theorem Built.performAll_congr (hh : h.Built) (hk : k.Built) (hbare : h.bare = k.bare)
    (ops : List (Operation μ)) :
    (h.performAll ops).1.filter (!·.isAggregate) =
      (k.performAll (ops.filter (!·.isAggregate))).1 := by
  induction ops generalizing h k with
  | nil => rfl
  | cons op rest ih =>
    cases hop : op.isAggregate with
    | true =>
      cases op with
      | aggregate => exact ih hh.aggregate hk hbare
      | _ => cases hop
    | false =>
      obtain ⟨hreply, hnext⟩ := hh.perform_congr hk hbare hop
      have hrest := ih (hh.perform op) (hk.perform op) hnext
      have hother := (h.isAggregate_perform op).trans hop
      show ((h.perform op).1 :: ((h.perform op).2.performAll rest).1).filter _ = _
      rw [List.filter_cons_of_pos (by rw [hother]; rfl), hrest,
        List.filter_cons_of_pos (by rw [hop]; rfl), hreply]
      rfl

theorem performAll_append (h : Hierarchy μ) (before rest : List (Operation μ)) :
    (h.performAll (before ++ rest)).1 =
      (h.performAll before).1 ++ ((h.performAll before).2.performAll rest).1 := by
  induction before generalizing h with
  | nil => rfl
  | cons op before ih => exact congrArg (List.cons (h.perform op).1) (ih (h.perform op).2)

theorem length_performAll (h : Hierarchy μ) (ops : List (Operation μ)) :
    (h.performAll ops).1.length = ops.length := by
  induction ops generalizing h with
  | nil => rfl
  | cons op rest ih => exact congrArg Nat.succ (ih (h.perform op).2)

/-! ## Declarations -/

/-- The constraints that a request declares when it is granted, with the component. -/
def Request.declares : Request μ → List (Constraint × ComponentId)
  | addConstraint owner before after => [(⟨before, after⟩, owner)]
  | addConstraints owner pairs => pairs.map fun k => (k, owner)
  | _ => []

/-- The constraints that an operation has declared, seen from its reply. -/
def declaredBy : Operation μ → Reply μ → List (Constraint × ComponentId)
  | .request r, .result (.ok _) => r.declares
  | _, _ => []

/-- The constraints that operations have declared, in order, with the components. -/
def declared (h : Hierarchy μ) : List (Operation μ) → List (Constraint × ComponentId)
  | [] => []
  | op :: rest => declaredBy op (h.perform op).1 ++ (h.perform op).2.declared rest

/-- Whether a declaration stands: the component that made it and the two blocks are alive. -/
def stands (h : Hierarchy μ) (e : Constraint × ComponentId) : Bool :=
  (h.component? e.2).isSome && (h.block? e.1.before).isSome && (h.block? e.1.after).isSome

theorem stands_iff {e : Constraint × ComponentId} :
    h.stands e = true ↔ (h.component? e.2).isSome ∧ (h.entry? e.1.before).isSome ∧
      (h.entry? e.1.after).isSome := by
  unfold stands block?
  rw [Bool.and_eq_true, Bool.and_eq_true, Option.isSome_map, Option.isSome_map, and_assoc]

/-- The constraints are the declarations that stand, in order; what is declared is about registered
components and blocks. -/
structure Ledger (h : Hierarchy μ) (log : List (Constraint × ComponentId)) : Prop where
  entries : h.constraints.entries = log.filter h.stands
  owner_lt : ∀ e ∈ log, e.2.index < h.components.size
  before_lt : ∀ e ∈ log, e.1.before.index < h.blocks.size
  after_lt : ∀ e ∈ log, e.1.after.index < h.blocks.size

namespace Ledger

variable {log : List (Constraint × ComponentId)} (hl : h.Ledger log)

include hl

theorem addComponent {parent c : ComponentId} {name : String}
    (he : h.addComponent parent name = .ok (c, h')) : h'.Ledger log := by
  obtain ⟨_, -, -, hc, hsize, -, hblocks, hconstraints⟩ := addComponent_effect he
  refine ⟨?_, ?_, by rw [hblocks]; exact hl.before_lt, by rw [hblocks]; exact hl.after_lt⟩
  · rw [hconstraints, hl.entries]
    refine List.filter_congr fun e hmem => ?_
    -- a declaration is older than the new component
    have hne : e.2 ≠ c := by
      intro heq
      have hlt := hl.owner_lt e hmem
      rw [heq, hc] at hlt
      exact Nat.lt_irrefl _ hlt
    rw [Bool.eq_iff_iff, stands_iff, stands_iff, entry?_addComponent he, entry?_addComponent he,
      isSome_component?_addComponent he, or_iff_right hne]
  · intro e hmem
    rw [hsize]
    exact Nat.lt_succ_of_lt (hl.owner_lt e hmem)

theorem registerBlock {owner : ComponentId} {block : UpdateBlock μ} {b : BlockId}
    (he : h.registerBlock owner block = .ok (b, h')) : h'.Ledger log := by
  obtain ⟨_, -, -, hb, hsize, -, hblocks, hconstraints⟩ := registerBlock_effect he
  have hentry : ∀ x : BlockId, x.index < h.blocks.size → h'.entry? x = h.entry? x := by
    intro x hx
    have hne : x ≠ b := by
      intro heq
      rw [heq, hb] at hx
      exact Nat.lt_irrefl _ hx
    rw [entry?_registerBlock he, if_neg hne]
  refine ⟨?_, by rw [hsize]; exact hl.owner_lt, ?_, ?_⟩
  · rw [hconstraints, hl.entries]
    refine List.filter_congr fun e hmem => ?_
    rw [Bool.eq_iff_iff, stands_iff, stands_iff, hentry _ (hl.before_lt e hmem),
      hentry _ (hl.after_lt e hmem), (sameTree_registerBlock he).isSome_iff]
  · intro e hmem
    rw [hblocks, Array.size_push]
    exact Nat.lt_succ_of_lt (hl.before_lt e hmem)
  · intro e hmem
    rw [hblocks, Array.size_push]
    exact Nat.lt_succ_of_lt (hl.after_lt e hmem)

theorem removeComponent (hb : h.BlocksAgree) {c : ComponentId}
    (he : h.removeComponent c = .ok h') : h'.Ledger log := by
  obtain ⟨-, _, -, hsize, -, -, hconstraints, hblocks⟩ := removeComponent_effect he rfl
  refine ⟨?_, by rw [hsize]; exact hl.owner_lt, by rw [hblocks]; exact hl.before_lt,
    by rw [hblocks]; exact hl.after_lt⟩
  rw [hconstraints]
  show h.constraints.entries.filter _ = _
  rw [hl.entries, List.filter_filter]
  refine List.filter_congr fun e hmem => ?_
  have hkeep : ∀ b, (h'.entry? b).isSome ↔
      (h.entry? b).isSome ∧ b ∉ h.blocksOf (h.subtree c) := by
    intro b
    rw [entry?_removeComponent he rfl hb, hb.mem_blocksOf]
    cases h.entry? b <;> simp
  rw [Bool.eq_iff_iff, Bool.and_eq_true, stands_iff, stands_iff, hkeep, hkeep,
    isSome_component?_removeComponent he rfl]
  unfold stale
  rw [Bool.not_eq_true', decide_eq_false_iff_not, not_or, not_or]
  tauto

theorem addConstraints {owner : ComponentId} {pairs : List Constraint}
    (he : h.addConstraints owner pairs = .ok h') :
    h'.Ledger (log ++ pairs.map fun k => (k, owner)) := by
  obtain ⟨howner, hpairs, hsize, -, hblocks, hentries⟩ := addConstraints_effect he
  have hstands : h'.stands = h.stands := by
    funext e
    rw [Bool.eq_iff_iff, stands_iff, stands_iff, entry?_addConstraints he,
      entry?_addConstraints he, (sameTree_addConstraints he).isSome_iff]
  have hnew : ∀ e ∈ pairs.map fun k => (k, owner), h.stands e = true := by
    intro e hmem
    obtain ⟨k, hk, rfl⟩ := List.mem_map.1 hmem
    obtain ⟨-, hbefore, hafter, -⟩ := hpairs k hk
    exact stands_iff.2 ⟨howner, hbefore, hafter⟩
  refine ⟨?_, fun e hmem => ?_, fun e hmem => ?_, fun e hmem => ?_⟩
  · rw [hentries, hl.entries, List.filter_append, hstands, List.filter_eq_self.2 hnew]
  · rw [hsize]
    rcases List.mem_append.1 hmem with hmem | hmem
    · exact hl.owner_lt e hmem
    · obtain ⟨node, hnode⟩ := Option.isSome_iff_exists.1 (stands_iff.1 (hnew e hmem)).1
      exact lt_size_of_component? hnode
  · rw [hblocks]
    rcases List.mem_append.1 hmem with hmem | hmem
    · exact hl.before_lt e hmem
    · exact lt_size_of_entry (stands_iff.1 (hnew e hmem)).2.1
  · rw [hblocks]
    rcases List.mem_append.1 hmem with hmem | hmem
    · exact hl.after_lt e hmem
    · exact lt_size_of_entry (stands_iff.1 (hnew e hmem)).2.2

/-- An operation adds to the ledger what it declares. -/
theorem perform (hh : h.Built) (op : Operation μ) :
    (h.perform op).2.Ledger (log ++ declaredBy op (h.perform op).1) := by
  have hnil : ∀ k : Hierarchy μ, k.Ledger (log ++ []) ↔ k.Ledger log := by
    intro k
    rw [List.append_nil]
  cases op with
  | ask q => exact (hnil h).2 hl
  | aggregate =>
    exact (hnil h.aggregate.2).2 ⟨hl.entries, hl.owner_lt, hl.before_lt, hl.after_lt⟩
  | request r =>
    show (h.request r).2.Ledger (log ++ declaredBy (.request r) (.result (h.request r).1))
    rcases hh.request_cases r with ⟨grant, k, he, hrequest⟩ | ⟨e, -, hrequest⟩
    · rw [hrequest]
      cases grants_of_edit he with
      | addComponent he => exact (hnil k).2 (hl.addComponent he)
      | removeComponent he => exact (hnil k).2 (hl.removeComponent hh.invariant.blocks he)
      | removeComponentNamed he => exact (hnil k).2 (hl.removeComponent hh.invariant.blocks he)
      | registerBlock he => exact (hnil k).2 (hl.registerBlock he)
      | addConstraint he => exact hl.addConstraints he
      | addConstraints he => exact hl.addConstraints he
    · rw [hrequest]
      exact (hnil h).2 hl

theorem performAll (hh : h.Built) (ops : List (Operation μ)) :
    (h.performAll ops).2.Ledger (log ++ h.declared ops) := by
  induction ops generalizing h log with
  | nil =>
    rw [declared, List.append_nil]
    exact hl
  | cons op rest ih =>
    rw [declared, ← List.append_assoc]
    exact ih (hl.perform hh op) (hh.perform op)

end Ledger

theorem ledger_new (top : String) : (new top : Hierarchy μ).Ledger [] :=
  ⟨rfl, fun _ h => (by cases h), fun _ h => (by cases h), fun _ h => (by cases h)⟩

theorem ledger_after (top : String) (ops : List (Operation μ)) :
    (after top ops).Ledger ((new top : Hierarchy μ).declared ops) :=
  (ledger_new top).performAll (.new top) ops

/-! ## What the aggregate shows -/

/-- An aggregate is what the tree is flattened to: the live blocks, by ascending number, with their
owners, and the declarations that stand, in order. -/
structure Flattens (h : Hierarchy μ) (log : List (Constraint × ComponentId)) (a : Aggregate) :
    Prop where
  eq_flatten : a = h.flatten
  ascending : a.blocks.Pairwise (·.index < ·.index)
  live : ∀ b, b ∈ a.blocks ↔ (h.block? b).isSome
  owners : ∀ b c, (b, c) ∈ a.owners ↔ h.ownerOf? b = some c
  constraints : a.constraints = (log.filter h.stands).map Prod.fst

theorem Ledger.flattens {log : List (Constraint × ComponentId)} (hl : h.Ledger log) :
    h.Flattens log h.flatten where
  eq_flatten := rfl
  ascending := h.pairwise_blocks_flatten
  live := fun _ => mem_blocks_flatten
  owners := fun _ _ => mem_liveOwners
  constraints := congrArg (List.map Prod.fst) hl.entries

/-- **The cache does not show.**  Wherever among any operations the aggregate is taken, it is the
flattened tree of that time; and without the aggregates all other operations reply the same. -/
theorem cache_unobservable (top : String) :
    (∀ before rest : List (Operation μ), ∃ a,
      ((new top).performAll (before ++ .aggregate :: rest)).1[before.length]? =
          some (.aggregate a) ∧
        (after top before).Flattens ((new top : Hierarchy μ).declared before) a) ∧
      ∀ ops : List (Operation μ),
        ((new top).performAll ops).1.filter (!·.isAggregate) =
          ((new top).performAll (ops.filter (!·.isAggregate))).1 := by
  refine ⟨fun before rest => ?_, fun ops => ?_⟩
  · have hflattened : (after top before).flattened = (after top before).flatten :=
      (built_after top before).flattened_eq
    refine ⟨(after top before).flattened, ?_, ?_⟩
    · rw [performAll_append, List.getElem?_append_right (length_performAll _ _).le,
        length_performAll, Nat.sub_self]
      rfl
    · rw [hflattened]
      exact (ledger_after top before).flattens
  · exact (Built.new top).performAll_congr (.new top) rfl ops

end Hierarchy

end Cyclewise
