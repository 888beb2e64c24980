import Cyclewise.Proofs.Hierarchy.Scripts

/-!
# Collecting components

Whatever was done with a hierarchy, `collect` lists the live components that satisfy a predicate in
the pre-order from the top (`collect_after`): a live component lists its live children, in the order
in which they were added (`listed_eq_offspring`), and what was removed once is never met again,
since a dead component stays dead and keeps its place below the components that it was added to
(`Outlasts`).
-/

namespace Cyclewise

namespace Hierarchy

variable {μ : Type} {h h' : Hierarchy μ}

/-! ## What is collected -/

/-- What a loop lists that takes a component off the stack of pending ones, passes over it if it is
dead, and otherwise lists it if it satisfies the predicate and puts its children in front. -/
inductive Gathers (h : Hierarchy μ) (p : ComponentId → Component → Bool) :
    List ComponentId → List ComponentId → Prop where
  | done : Gathers h p [] []
  | dead {c pending out} (hc : h.component? c = none) (hrest : Gathers h p pending out) :
      Gathers h p (c :: pending) out
  | take {c pending out node} (hc : h.component? c = some node) (hp : p c node = true)
      (hrest : Gathers h p (node.children.values ++ pending) out) :
      Gathers h p (c :: pending) (c :: out)
  | skip {c pending out node} (hc : h.component? c = some node) (hp : p c node = false)
      (hrest : Gathers h p (node.children.values ++ pending) out) :
      Gathers h p (c :: pending) out

/-- The component that an operation adds. -/
def Reply.addition? : Reply μ → Option ComponentId
  | result (.ok (.component c)) => some c
  | _ => none

/-- The components that operations add, in the order in which they are added. -/
def additions (h : Hierarchy μ) : List (Operation μ) → List ComponentId
  | [] => []
  | op :: rest => (h.perform op).1.addition?.toList ++ (h.perform op).2.additions rest

/-- The live children of a component, in the order in which they were added. -/
def offspring (top : String) (ops : List (Operation μ)) (c : ComponentId) : List ComponentId :=
  ((new top).additions ops).filter fun d => (after top ops).above? d = some c

/-- The component that another one was added to, dead or alive. -/
def addedTo? (h : Hierarchy μ) (c : ComponentId) : Option ComponentId :=
  (h.components[c.index]?).bind Component.parent

/-- The component that a request removes, with what is below it. -/
def Request.removes? (h : Hierarchy μ) : Request μ → Option ComponentId
  | removeComponent c => some c
  | removeComponentNamed parent name => h.childNamed? parent name
  | _ => none

/-- Among the operations there is a granted request that removes the component. -/
def Removed (top : String) (ops : List (Operation μ)) (c : ComponentId) : Prop :=
  ∃ earlier r grant later, ops = earlier ++ .request r :: later ∧
    r.removes? (after top earlier) = some c ∧ ((after top earlier).request r).1 = .ok grant

/-- The pre-order of the live components from the top. -/
structure LiveOrder (top : String) (ops : List (Operation μ)) (order : List ComponentId) :
    Prop where
  preorder : DepthFirst (offspring top ops) [Hierarchy.top] order
  mem_iff : ∀ c, c ∈ order ↔ ((after top ops).component? c).isSome
  nodup : order.Nodup
  /-- Nothing is listed behind what lies inside it. -/
  parents_first : order.Pairwise fun c d => ¬ Inside (after top ops).above? c d
  /-- What lies inside a component is listed in one piece, which it begins. -/
  contiguous : ∀ c ∈ order, ∃ before below rest, order = before ++ (c :: below) ++ rest ∧
    DepthFirst (offspring top ops) [c] (c :: below) ∧
    ∀ d, d ∈ c :: below ↔ Inside (after top ops).above? d c

/-! ## Children in the order of their addition -/

theorem Built.addition?_request (hh : h.Built) (r : Request μ) :
    ∃ n, ((Reply.result (h.request r).1 : Reply μ).addition?).toList =
        (List.range' h.components.size n).map ComponentId.mk ∧
      (h.request r).2.components.size = h.components.size + n := by
  rcases hh.request_cases r with ⟨grant, k, he, hrequest⟩ | ⟨e, -, hrequest⟩
  · rw [hrequest]
    -- only a granted addition gives out a component
    cases r with
    | addComponent parent name =>
      obtain ⟨⟨c, k'⟩, hk, heq⟩ := map_eq_ok he
      obtain ⟨rfl, rfl⟩ := Prod.mk.inj heq
      obtain ⟨-, -, -, rfl, hsize, -⟩ := addComponent_effect hk
      exact ⟨1, rfl, hsize⟩
    | removeComponent c =>
      obtain ⟨k', hk, heq⟩ := map_eq_ok he
      obtain ⟨rfl, rfl⟩ := Prod.mk.inj heq
      obtain ⟨-, -, -, hsize, -⟩ := removeComponent_effect hk rfl
      exact ⟨0, rfl, hsize⟩
    | removeComponentNamed parent name =>
      obtain ⟨k', hk, heq⟩ := map_eq_ok he
      obtain ⟨rfl, rfl⟩ := Prod.mk.inj heq
      unfold Hierarchy.removeComponentNamed at hk
      split at hk
      · obtain ⟨-, -, -, hsize, -⟩ := removeComponent_effect hk rfl
        exact ⟨0, rfl, hsize⟩
      · cases hk
    | registerBlock owner block =>
      obtain ⟨⟨b, k'⟩, hk, heq⟩ := map_eq_ok he
      obtain ⟨rfl, rfl⟩ := Prod.mk.inj heq
      obtain ⟨-, -, -, -, hsize, -⟩ := registerBlock_effect hk
      exact ⟨0, rfl, hsize⟩
    | addConstraint owner before after =>
      obtain ⟨k', hk, heq⟩ := map_eq_ok he
      obtain ⟨rfl, rfl⟩ := Prod.mk.inj heq
      obtain ⟨-, -, hsize, -⟩ := addConstraints_effect hk
      exact ⟨0, rfl, hsize⟩
    | addConstraints owner pairs =>
      obtain ⟨k', hk, heq⟩ := map_eq_ok he
      obtain ⟨rfl, rfl⟩ := Prod.mk.inj heq
      obtain ⟨-, -, hsize, -⟩ := addConstraints_effect hk
      exact ⟨0, rfl, hsize⟩
  · rw [hrequest]
    exact ⟨0, rfl, rfl⟩

/-- Components are numbered in the order in which they are added. -/
theorem Built.additions_eq (hh : h.Built) (ops : List (Operation μ)) :
    ∃ n, h.additions ops = (List.range' h.components.size n).map ComponentId.mk ∧
      (h.performAll ops).2.components.size = h.components.size + n := by
  induction ops generalizing h with
  | nil => exact ⟨0, rfl, rfl⟩
  | cons op rest ih =>
    have hop : ∃ n, ((h.perform op).1.addition?).toList =
          (List.range' h.components.size n).map ComponentId.mk ∧
        (h.perform op).2.components.size = h.components.size + n := by
      cases op with
      | request r => exact hh.addition?_request r
      | ask q => exact ⟨0, rfl, rfl⟩
      | aggregate => exact ⟨0, rfl, rfl⟩
    obtain ⟨n, hadded, hsize⟩ := hop
    obtain ⟨m, hrest, hfinal⟩ := ih (hh.perform op)
    refine ⟨n + m, ?_, ?_⟩
    · rw [additions, hadded, hrest, hsize, ← List.map_append]
      rw [← List.range'_append, Nat.one_mul]
    · change ((h.perform op).2.performAll rest).2.components.size = _
      omega

/-- The children of a live component are listed in the order of their numbers. -/
def ChildrenAscend (h : Hierarchy μ) : Prop :=
  ∀ {c node}, h.component? c = some node → node.children.values.Pairwise (·.index < ·.index)

theorem SameTree.childrenAscend (hs : h.SameTree h') (ha : h.ChildrenAscend) :
    h'.ChildrenAscend := by
  intro c node' hc
  obtain ⟨node, hnode, -, -, hchildren⟩ := hs.of_new hc
  rw [hchildren]
  exact ha hnode

theorem ChildrenAscend.addComponent (ha : h.ChildrenAscend) (ht : h.TreeAgrees)
    {parent c : ComponentId} {name : String} (he : h.addComponent parent name = .ok (c, h')) :
    h'.ChildrenAscend := by
  obtain ⟨node, hparent, hfree, rfl, -, hcomponent, -⟩ := addComponent_effect he
  intro d node' hd
  rw [hcomponent] at hd
  split at hd
  · obtain rfl := Option.some.inj hd
    exact List.Pairwise.nil
  split at hd
  · obtain rfl := Option.some.inj hd
    have hkey : name ∉ node.children.keys := by
      rw [OrderedMap.mem_keys_iff_isSome_find?, hfree]
      exact Bool.false_ne_true
    change ((node.children.insert name _).entries.map Prod.snd).Pairwise _
    rw [OrderedMap.entries_insert_of_not_mem hkey, List.map_append]
    refine List.pairwise_append.2 ⟨ha hparent, List.pairwise_singleton .., ?_⟩
    intro a hmem b hb
    -- the new number is greater than that of any component
    obtain rfl : b = ⟨h.components.size⟩ := List.mem_singleton.1 hb
    obtain ⟨n, hchild⟩ := (ht.mem_children hparent).1 hmem
    obtain ⟨child, hlive⟩ := Option.isSome_iff_exists.1 hchild.live
    exact lt_size_of_component? hlive
  · exact ha hd

theorem ChildrenAscend.removeComponent (ha : h.ChildrenAscend) {c : ComponentId}
    (he : h.removeComponent c = .ok h') : h'.ChildrenAscend := by
  obtain ⟨-, node, -, -, hcomponent, -⟩ := removeComponent_effect he rfl
  intro d node' hd
  rw [hcomponent] at hd
  split at hd
  · cases hd
  · obtain ⟨old, hold, rfl⟩ := Option.map_eq_some_iff.1 hd
    change (if node.parent = some d then old.children.erase node.name
      else old.children).values.Pairwise _
    split
    · exact (ha hold).sublist (List.filter_sublist.map _)
    · exact ha hold

theorem Built.childrenAscend (hh : h.Built) : h.ChildrenAscend := by
  induction hh with
  | new top =>
    intro c node hc
    obtain ⟨index⟩ := c
    obtain rfl : index = 0 := Nat.lt_one_iff.1 (lt_size_of_component? hc)
    obtain rfl := Option.some.inj hc
    exact List.Pairwise.nil
  | addComponent hh he ih => exact ih.addComponent hh.invariant.tree he
  | registerBlock _ he ih => exact (sameTree_registerBlock he).childrenAscend ih
  | removeComponent _ he ih => exact ih.removeComponent he
  | addConstraints _ he ih => exact (sameTree_addConstraints he).childrenAscend ih
  | aggregate _ ih => exact ih

/-- A component lists its live children, in the order in which they were added. -/
theorem listed_eq_offspring (top : String) (ops : List (Operation μ)) (c : ComponentId) :
    (after top ops).listed c = offspring top ops c := by
  have hbuilt := built_after top ops
  have hforest := hbuilt.invariant.tree.isForest
  obtain ⟨n, hadded, hsize⟩ := (Built.new top).additions_eq ops
  unfold offspring
  rw [hadded]
  refine @eq_of_ascending _ ComponentId.index _ _ ?_ ?_ fun d => ?_
  · cases hc : (after top ops).component? c with
    | none =>
      unfold listed
      rw [hc]
      exact List.Pairwise.nil
    | some node =>
      rw [listed_of_component? hc]
      exact hbuilt.childrenAscend hc
  · refine List.Pairwise.filter _ (List.pairwise_map.2 ?_)
    exact List.pairwise_lt_range'
  · rw [hforest.mem_children, List.mem_filter, decide_eq_true_eq]
    refine (and_iff_right_of_imp fun hd => ?_).symm
    -- the top is not a child, so a child was added
    obtain ⟨node, hnode⟩ := Option.isSome_iff_exists.1 (live_of_above? hd)
    have hlt := lt_size_of_component? hnode
    have hpos := hforest.rank_lt hd
    have hcount : (after top ops).components.size = 1 + n := hsize
    refine List.mem_map.2 ⟨d.index, List.mem_range'_1.2 ⟨?_, ?_⟩, rfl⟩
    · exact Nat.one_le_of_lt hpos
    · exact hcount ▸ hlt

/-! ## What was removed -/

/-- Components keep their parents, and the dead do not come back. -/
def Outlasts (cs cs' : Array Component) : Prop :=
  ∀ (i : Nat) (node : Component), cs[i]? = some node →
    ∃ node', cs'[i]? = some node' ∧ node'.parent = node.parent ∧
      (node'.alive = true → node.alive = true)

namespace Outlasts

variable {cs cs' cs'' : Array Component}

theorem refl (cs : Array Component) : Outlasts cs cs := fun _ node hi => ⟨node, hi, rfl, id⟩

theorem trans (h : Outlasts cs cs') (h' : Outlasts cs' cs'') : Outlasts cs cs'' := by
  intro i node hi
  obtain ⟨node', hi', hparent, halive⟩ := h i node hi
  obtain ⟨node'', hi'', hparent', halive'⟩ := h' i node' hi'
  exact ⟨node'', hi'', hparent'.trans hparent, halive ∘ halive'⟩

theorem push (cs : Array Component) (node : Component) : Outlasts cs (cs.push node) := by
  intro i old hi
  refine ⟨old, ?_, rfl, id⟩
  obtain ⟨hlt, -⟩ := Array.getElem?_eq_some_iff.1 hi
  rw [Array.getElem?_push, if_neg (Nat.ne_of_lt hlt), hi]

theorem mapIdx {f : Nat → Component → Component} (cs : Array Component)
    (hf : ∀ i node, (f i node).parent = node.parent ∧
      ((f i node).alive = true → node.alive = true)) : Outlasts cs (cs.mapIdx f) := by
  intro i node hi
  refine ⟨f i node, ?_, hf i node⟩
  rw [Array.getElem?_mapIdx, hi, Option.map_some]

theorem modify {f : Component → Component} (cs : Array Component) (i : Nat)
    (hf : ∀ node, (f node).parent = node.parent ∧ (f node).alive = node.alive) :
    Outlasts cs (cs.modify i f) := by
  intro j node hj
  rw [Array.getElem?_modify, hj]
  split
  · obtain ⟨hparent, halive⟩ := hf node
    exact ⟨f node, rfl, hparent, fun h => halive ▸ h⟩
  · exact ⟨node, rfl, rfl, id⟩

end Outlasts

theorem outlasts_addComponent {parent c : ComponentId} {name : String}
    (he : h.addComponent parent name = .ok (c, h')) : Outlasts h.components h'.components := by
  simp only [addComponent, bind, Except.bind] at he
  split at he
  · cases he
  · split at he
    · cases he
    · obtain ⟨-, rfl⟩ := Prod.mk.inj (Except.ok.inj he)
      exact (Outlasts.push _ _).trans (.modify _ _ fun _ => ⟨rfl, rfl⟩)

theorem outlasts_registerBlock {owner : ComponentId} {block : UpdateBlock μ} {b : BlockId}
    (he : h.registerBlock owner block = .ok (b, h')) : Outlasts h.components h'.components := by
  simp only [registerBlock, bind, Except.bind] at he
  split at he
  · cases he
  · split at he
    · cases he
    · obtain ⟨-, rfl⟩ := Prod.mk.inj (Except.ok.inj he)
      exact .modify _ _ fun _ => ⟨rfl, rfl⟩

theorem outlasts_removeComponent {c : ComponentId} (he : h.removeComponent c = .ok h') :
    Outlasts h.components h'.components := by
  simp only [removeComponent, bind, Except.bind] at he
  split at he
  · cases he
  · split at he
    · cases he
    · obtain rfl := Except.ok.inj he
      exact .mapIdx _ fun i node => ⟨rfl, fun halive => (Bool.and_eq_true_iff.1 halive).1⟩

theorem outlasts_addConstraints {owner : ComponentId} {pairs : List Constraint}
    (he : h.addConstraints owner pairs = .ok h') : Outlasts h.components h'.components := by
  simp only [addConstraints, bind, Except.bind] at he
  split at he
  · cases he
  · split at he
    · cases he
    · split at he
      · obtain rfl := Except.ok.inj he
        exact .refl _
      · obtain rfl := Except.ok.inj he
        exact .modify _ _ fun _ => ⟨rfl, rfl⟩

theorem Grants.outlasts {r : Request μ} (hg : h.Grants r h') :
    Outlasts h.components h'.components := by
  cases hg with
  | addComponent he => exact outlasts_addComponent he
  | removeComponent he => exact outlasts_removeComponent he
  | removeComponentNamed he => exact outlasts_removeComponent he
  | registerBlock he => exact outlasts_registerBlock he
  | addConstraint he => exact outlasts_addConstraints he
  | addConstraints he => exact outlasts_addConstraints he

theorem Built.outlasts_performAll (hh : h.Built) (ops : List (Operation μ)) :
    Outlasts h.components (h.performAll ops).2.components := by
  induction ops generalizing h with
  | nil => exact .refl _
  | cons op rest ih =>
    have hop : Outlasts h.components (h.perform op).2.components := by
      cases op with
      | request r =>
        change Outlasts h.components (h.request r).2.components
        rcases hh.request_cases r with ⟨grant, k, he, hrequest⟩ | ⟨e, -, hrequest⟩
        · rw [hrequest]
          exact (grants_of_edit he).outlasts
        · rw [hrequest]
          exact .refl _
      | ask q => exact .refl _
      | aggregate => exact .refl _
    exact hop.trans (ih (hh.perform op))

theorem after_append (top : String) (earlier later : List (Operation μ)) :
    after top (earlier ++ later) = ((after top earlier).performAll later).2 := by
  have hstep : ∀ (earlier : List (Operation μ)) (h : Hierarchy μ),
      (h.performAll (earlier ++ later)).2 = ((h.performAll earlier).2.performAll later).2 := by
    intro earlier
    induction earlier with
    | nil => exact fun _ => rfl
    | cons op earlier ih => exact fun h => ih (h.perform op).2
  exact hstep earlier (new top)

/-- A granted removal takes the component away. -/
theorem Built.component?_request_eq_none (hh : h.Built) {r : Request μ} {c : ComponentId}
    (hr : r.removes? h = some c) {grant : Grant} (hgrant : (h.request r).1 = .ok grant) :
    (∃ node, h.component? c = some node) ∧ (h.request r).2.component? c = none := by
  have hremoved : ∃ k, h.removeComponent c = .ok k ∧ (h.request r).2 = k := by
    rcases hh.request_cases r with ⟨_, k, he, hrequest⟩ | ⟨e, -, hrequest⟩
    · refine ⟨k, ?_, by rw [hrequest]⟩
      cases r with
      | removeComponent d =>
        obtain rfl := Option.some.inj hr
        obtain ⟨k', hk, heq⟩ := map_eq_ok he
        exact (Prod.mk.inj heq).2 ▸ hk
      | removeComponentNamed parent name =>
        obtain ⟨k', hk, heq⟩ := map_eq_ok he
        have hnamed : h.childNamed? parent name = some c := hr
        unfold Hierarchy.removeComponentNamed at hk
        rw [hnamed] at hk
        exact (Prod.mk.inj heq).2 ▸ hk
      | addComponent => cases hr
      | registerBlock => cases hr
      | addConstraint => cases hr
      | addConstraints => cases hr
    · rw [hrequest] at hgrant
      cases hgrant
  obtain ⟨k, hk, hstate⟩ := hremoved
  obtain ⟨-, node, hnode, -, hcomponent, -⟩ := removeComponent_effect hk rfl
  rw [hstate, hcomponent, if_pos (isSubtree_removed hk rfl hh.invariant.tree).root_mem]
  exact ⟨⟨node, hnode⟩, rfl⟩

/-- What is dead once is dead from then on. -/
theorem Outlasts.component?_eq_none (hout : Outlasts h.components h'.components) {c : ComponentId}
    (hlt : c.index < h.components.size) (hc : h.component? c = none) : h'.component? c = none := by
  have hnode := Array.getElem?_eq_getElem hlt
  obtain ⟨node', hnode', -, halive⟩ := hout c.index _ hnode
  have hdead : ¬ h.components[c.index].alive = true := by
    intro hlive
    unfold component? at hc
    rw [hnode, Option.filter_some, if_pos hlive] at hc
    cases hc
  unfold component?
  rw [hnode', Option.filter_some, if_neg fun h' => hdead (halive h')]

theorem Removed.component?_eq_none {top : String} {ops : List (Operation μ)} {c : ComponentId}
    (hc : Removed top ops c) : (after top ops).component? c = none := by
  obtain ⟨earlier, r, grant, later, rfl, hr, hgrant⟩ := hc
  have hearlier := built_after top earlier
  have hnext := hearlier.perform (.request r)
  obtain ⟨⟨node, hnode⟩, hdead⟩ := hearlier.component?_request_eq_none hr hgrant
  -- the place of the component is still there
  have hlt : c.index < ((after top earlier).request r).2.components.size := by
    obtain ⟨hentry, -⟩ := Option.filter_eq_some_iff.1 hnode
    obtain ⟨node', hnode', -⟩ := hearlier.outlasts_performAll [.request r] c.index node hentry
    exact (Array.getElem?_eq_some_iff.1 hnode').1
  rw [after_append]
  exact (hnext.outlasts_performAll later).component?_eq_none hlt hdead

theorem Outlasts.inside_addedTo? (hout : Outlasts h.components h'.components) {d c : ComponentId}
    (hd : Inside h.addedTo? d c) : Inside h'.addedTo? d c := by
  refine Relation.ReflTransGen.mono (fun a p hlink => ?_) d c hd
  obtain ⟨node, hnode, hparent⟩ := Option.bind_eq_some_iff.1 hlink
  obtain ⟨node', hnode', hparent', -⟩ := hout a.index node hnode
  exact Option.bind_eq_some_iff.2 ⟨node', hnode', hparent'.trans hparent⟩

/-- A live component was added below live ones only. -/
theorem TreeAgrees.live_of_inside_addedTo? (ht : h.TreeAgrees) {d c : ComponentId}
    (hd : Inside h.addedTo? d c) (hlive : (h.component? d).isSome) : (h.component? c).isSome := by
  induction hd with
  | refl => exact hlive
  | @tail a p _ hlink ih =>
    obtain ⟨node, hnode⟩ := Option.isSome_iff_exists.1 ih
    have hparent : h.above? a = some p := by
      obtain ⟨hentry, -⟩ := Option.filter_eq_some_iff.1 hnode
      unfold addedTo? at hlink
      rw [hentry] at hlink
      unfold above?
      rw [hnode]
      exact hlink
    obtain ⟨n, hchild⟩ := exists_isChild_iff.2 hparent
    exact (ht.lt_of_isChild hchild).2

/-! ## The walk from the top -/

theorem gathers_of_stackLoop {p : ComponentId → Component → Bool} {stack order : List ComponentId}
    (hwalk : StackLoop h.listed stack order) (hlive : ∀ c ∈ order, (h.component? c).isSome) :
    h.Gathers p stack (order.filter fun c => (h.component? c).any (p c)) := by
  induction hwalk with
  | done => exact .done
  | @step c pending rest _ ih =>
    obtain ⟨hc, hrest⟩ := List.forall_mem_cons.1 hlive
    obtain ⟨node, hnode⟩ := Option.isSome_iff_exists.1 hc
    have hnext := ih hrest
    rw [listed_of_component? hnode] at hnext
    rw [List.filter_cons, hnode, Option.any_some]
    cases hp : p c node with
    | true => exact .take hnode hp hnext
    | false => exact .skip hnode hp hnext

/-- Live components lie inside the top. -/
theorem TreeAgrees.inside_top_iff (ht : h.TreeAgrees) {c : ComponentId} :
    Inside h.above? c top ↔ (h.component? c).isSome := by
  constructor
  · intro hc
    obtain ⟨node, hnode, -⟩ := ht.top_live
    exact live_of_inside hc (by rw [hnode]; rfl)
  · -- by induction on the number, which is greater than that of the parent
    induction hi : c.index using Nat.strongRecOn generalizing c with
    | _ i ih =>
      intro hc
      by_cases htop : c = top
      · rw [htop]
        exact .refl
      · obtain ⟨node, hnode⟩ := Option.isSome_iff_exists.1 hc
        obtain ⟨p, hp, hlt, hplive⟩ := ht.parent hnode htop
        have hlink : h.above? c = some p := by
          unfold above?
          rw [hnode]
          exact hp
        exact .head hlink (ih p.index (hi ▸ hlt) rfl hplive)

theorem exists_liveOrder (top : String) (ops : List (Operation μ)) :
    ∃ order, LiveOrder top ops order ∧ ∀ p,
      (after top ops).Gathers p [Hierarchy.top] ((after top ops).collect p) ∧
      (after top ops).collect p =
        order.filter fun c => ((after top ops).component? c).any (p c) := by
  have ht := (built_after top ops).invariant.tree
  have hforest := ht.isForest
  have hoffspring : (after top ops).listed = offspring top ops :=
    funext (listed_eq_offspring top ops)
  obtain ⟨node, htop, -⟩ := ht.top_live
  obtain ⟨order, hwalk, hnodup, hmem, hcollect⟩ := ht.exists_collectFrom_eq
    (c := Hierarchy.top) (by rw [htop]; rfl)
  have hlive : ∀ c, c ∈ order ↔ ((after top ops).component? c).isSome := fun c =>
    (hmem c).trans ht.inside_top_iff
  refine ⟨order, ⟨hoffspring ▸ hwalk, hlive, hnodup,
    hforest.pairwise hwalk (List.pairwise_singleton ..), fun c hc => ?_⟩, fun p => ⟨?_, hcollect p⟩⟩
  · obtain ⟨before, below, rest, horder, hbelow⟩ := hwalk.exists_segment hc
    have hsegment := DepthFirst.cons hbelow .nil
    rw [List.append_nil] at hsegment
    refine ⟨before, below, rest, by simpa using horder, hoffspring ▸ hsegment, fun d => ?_⟩
    rw [hforest.mem_iff hsegment]
    simp
  · unfold collect
    rw [hcollect]
    exact gathers_of_stackLoop (stackLoop_iff_depthFirst.2 hwalk) fun c hc => (hlive c).1 hc

/-- **Collecting.**  Whatever was done with a hierarchy, the loop from the top ends, and it lists
the live components that satisfy the predicate in the order of the one pre-order of all.  What was
removed is not among them, nor is anything that was added below it at any time. -/
theorem collect_after (top : String) (ops : List (Operation μ)) :
    (∃ order, LiveOrder top ops order ∧ ∀ p,
      (after top ops).Gathers p [Hierarchy.top] ((after top ops).collect p) ∧
      (after top ops).collect p =
        order.filter fun c => ((after top ops).component? c).any (p c)) ∧
    ∀ p, ∀ d ∈ (after top ops).collect p, ∀ earlier later, ops = earlier ++ later →
      ∀ c, Inside (after top earlier).addedTo? d c → ¬ Removed top ops c := by
  obtain ⟨order, horder, hcollect⟩ := exists_liveOrder top ops
  refine ⟨⟨order, horder, hcollect⟩, fun p d hd earlier later hops c hinside hremoved => ?_⟩
  rw [(hcollect p).2] at hd
  have hlive := (horder.mem_iff d).1 (List.mem_filter.1 hd).1
  have hout : Outlasts (after top earlier).components (after top ops).components := by
    rw [hops, after_append]
    exact (built_after top earlier).outlasts_performAll later
  have hc := (built_after top ops).invariant.tree.live_of_inside_addedTo?
    (hout.inside_addedTo? hinside) hlive
  rw [hremoved.component?_eq_none] at hc
  cases hc

/-- A component that is added under the name of a removed one comes behind its siblings. -/
example : (after "top" [.request (.addComponent top "a"), .request (.addComponent top "b"),
    .request (.addComponent ⟨2⟩ "x"), .request (.removeComponentNamed top "a"),
    .request (.addComponent top "a")] : Hierarchy Unit).collect (fun _ _ => true) =
      [top, ⟨2⟩, ⟨3⟩, ⟨4⟩] := by
  rfl

end Hierarchy

end Cyclewise
