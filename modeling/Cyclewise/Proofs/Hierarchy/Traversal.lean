import Cyclewise.Proofs.DepthFirst
import Cyclewise.Proofs.Hierarchy.Invariant
import Cyclewise.Proofs.Numbers

/-!
# Walking through the tree of components

Where the records of the tree agree, the live components with the lists of their children are a
forest (`TreeAgrees.isForest`).  So a walk from a live component lists everything below it once, in
pre-order, and the fuel of the walk suffices (`TreeAgrees.exists_collectFrom_eq`).  A subtree is
what is live and lies inside its root (`TreeAgrees.isSubtree`).
-/

namespace Cyclewise

namespace Hierarchy

variable {μ : Type} {h : Hierarchy μ}

/-- The parent of a live component. -/
def above? (h : Hierarchy μ) (c : ComponentId) : Option ComponentId :=
  (h.component? c).bind Component.parent

/-- The children that a live component lists. -/
def listed (h : Hierarchy μ) (c : ComponentId) : List ComponentId :=
  ((h.component? c).map (·.children.values)).getD []

/-! ## Children -/

theorem IsChild.unique {p p' c : ComponentId} {n n' : String} (hc : h.IsChild p n c)
    (hc' : h.IsChild p' n' c) : p = p' ∧ n = n' := by
  obtain ⟨child, hchild, hparent, hname⟩ := hc
  obtain ⟨child', hchild', hparent', hname'⟩ := hc'
  obtain rfl := Option.some.inj (hchild.symm.trans hchild')
  exact ⟨Option.some.inj (hparent.symm.trans hparent'), hname.symm.trans hname'⟩

theorem IsChild.live {p c : ComponentId} {n : String} (hc : h.IsChild p n c) :
    (h.component? c).isSome := by
  obtain ⟨child, hchild, -, -⟩ := hc
  rw [hchild]
  rfl

theorem exists_isChild_iff {p c : ComponentId} : (∃ n, h.IsChild p n c) ↔ h.above? c = some p := by
  unfold above?
  rw [Option.bind_eq_some_iff]
  constructor
  · rintro ⟨_, child, hchild, hparent, -⟩
    exact ⟨child, hchild, hparent⟩
  · rintro ⟨child, hchild, hparent⟩
    exact ⟨child.name, child, hchild, hparent, rfl⟩

theorem listed_of_component? {c : ComponentId} {node : Component}
    (hc : h.component? c = some node) : h.listed c = node.children.values := by
  unfold listed
  rw [hc]
  rfl

theorem live_of_above? {c p : ComponentId} (hc : h.above? c = some p) :
    (h.component? c).isSome := by
  obtain ⟨n, hchild⟩ := exists_isChild_iff.2 hc
  exact hchild.live

/-- What lies inside a live component is alive. -/
theorem live_of_inside {c d : ComponentId} (hd : Inside h.above? d c)
    (hc : (h.component? c).isSome) : (h.component? d).isSome := by
  rcases Relation.ReflTransGen.cases_head hd with rfl | ⟨p, hp, -⟩
  · exact hc
  · exact live_of_above? hp

namespace TreeAgrees

variable (ht : h.TreeAgrees)

include ht

/-- A child is younger than its parent, and its parent is alive. -/
theorem lt_of_isChild {p c : ComponentId} {n : String} (hc : h.IsChild p n c) :
    p.index < c.index ∧ (h.component? p).isSome := by
  obtain ⟨child, hchild, hparent, -⟩ := hc
  have htop : c ≠ top := by
    rintro rfl
    obtain ⟨node, hnode, hnone⟩ := ht.top_live
    obtain rfl := Option.some.inj (hchild.symm.trans hnode)
    rw [hparent] at hnone
    cases hnone
  obtain ⟨q, hq, hlt, hlive⟩ := ht.parent hchild htop
  obtain rfl := Option.some.inj (hparent.symm.trans hq)
  exact ⟨hlt, hlive⟩

theorem mem_children {p : ComponentId} {node : Component} (hp : h.component? p = some node)
    {c : ComponentId} : c ∈ node.children.values ↔ ∃ n, h.IsChild p n c := by
  unfold OrderedMap.values
  rw [List.mem_map]
  constructor
  · rintro ⟨⟨n, c⟩, hmem, rfl⟩
    exact ⟨n, (ht.children hp n c).1 (OrderedMap.mem_entries_iff.1 hmem)⟩
  · rintro ⟨n, hc⟩
    exact ⟨(n, c), OrderedMap.mem_entries_iff.2 ((ht.children hp n c).2 hc), rfl⟩

/-- No component is listed under two names. -/
theorem nodup_children {p : ComponentId} {node : Component} (hp : h.component? p = some node) :
    node.children.values.Nodup := by
  have hkeys := List.pairwise_map.1 node.children.nodup_keys
  refine List.pairwise_map.2 (hkeys.imp_of_mem fun {e e'} he he' hne heq => hne ?_)
  have hc := (ht.children hp e.1 e.2).1 (OrderedMap.mem_entries_iff.1 he)
  have hc' := (ht.children hp e'.1 e'.2).1 (OrderedMap.mem_entries_iff.1 he')
  rw [← heq] at hc'
  exact (hc.unique hc').2

theorem isForest : IsForest h.above? h.listed ComponentId.index where
  mem_children {c p} := by
    rw [← exists_isChild_iff]
    cases hp : h.component? p with
    | none =>
      have hempty : h.listed p = [] := by
        unfold listed
        rw [hp]
        rfl
      rw [hempty]
      constructor
      · intro hc
        cases hc
      · rintro ⟨n, hc⟩
        have hlive := (ht.lt_of_isChild hc).2
        rw [hp] at hlive
        cases hlive
    | some node => rw [listed_of_component? hp, ht.mem_children hp]
  nodup_children p := by
    cases hp : h.component? p with
    | none =>
      unfold listed
      rw [hp]
      exact List.nodup_nil
    | some node =>
      rw [listed_of_component? hp]
      exact ht.nodup_children hp
  rank_lt {c p} hc := by
    obtain ⟨n, hchild⟩ := exists_isChild_iff.2 hc
    exact (ht.lt_of_isChild hchild).1

end TreeAgrees

/-! ## The walk -/

/-- With fuel for all that is listed, the walk lists what satisfies the predicate. -/
theorem visit_eq {p : ComponentId → Component → Bool} {fuel : Nat} {stack order : List ComponentId}
    (hwalk : StackLoop h.listed stack order) (hlive : ∀ c ∈ order, (h.component? c).isSome)
    (hfuel : order.length ≤ fuel) :
    h.visit p fuel stack = order.filter fun c => (h.component? c).any (p c) := by
  induction hwalk generalizing fuel with
  | done => cases fuel <;> rfl
  | @step c pending rest _ ih =>
    cases fuel with
    | zero => cases hfuel
    | succ fuel =>
      obtain ⟨hc, hrest⟩ := List.forall_mem_cons.1 hlive
      obtain ⟨node, hnode⟩ := Option.isSome_iff_exists.1 hc
      have hnext := ih hrest (Nat.le_of_succ_le_succ hfuel)
      rw [listed_of_component? hnode] at hnext
      rw [visit, hnode, List.filter_cons, hnode]
      simp only [hnext, Option.any_some]

/-- A walk from a live component lists, of the pre-order from there, what satisfies the
predicate. -/
theorem TreeAgrees.exists_collectFrom_eq (ht : h.TreeAgrees) {c : ComponentId}
    (hc : (h.component? c).isSome) :
    ∃ order, DepthFirst h.listed [c] order ∧ order.Nodup ∧
      (∀ d, d ∈ order ↔ Inside h.above? d c) ∧
      ∀ p, h.collectFrom p c = order.filter fun d => (h.component? d).any (p d) := by
  have hbound : ∀ {d q}, h.above? d = some q → d.index < h.components.size := by
    intro d q hd
    obtain ⟨node, hnode⟩ := Option.isSome_iff_exists.1 (live_of_above? hd)
    exact lt_size_of_component? hnode
  obtain ⟨order, horder⟩ := ht.isForest.exists_depthFirst hbound [c]
  have hnodup := ht.isForest.nodup horder (List.pairwise_singleton ..)
  have hmem : ∀ d, d ∈ order ↔ Inside h.above? d c := fun d => by
    rw [ht.isForest.mem_iff horder]
    simp
  have hlive : ∀ d ∈ order, (h.component? d).isSome := fun d hd =>
    live_of_inside ((hmem d).1 hd) hc
  have hlength : order.length ≤ h.components.size :=
    length_le_of_nodup (fun _ _ => congrArg ComponentId.mk) hnodup fun d hd => by
      obtain ⟨node, hnode⟩ := Option.isSome_iff_exists.1 (hlive d hd)
      exact lt_size_of_component? hnode
  exact ⟨order, horder, hnodup, hmem, fun p =>
    visit_eq (stackLoop_iff_depthFirst.2 horder) hlive hlength⟩

/-! ## Subtrees -/

/-- The components of the subtree of `c`. -/
structure IsSubtree (h : Hierarchy μ) (c : ComponentId) (dead : List ComponentId) : Prop where
  root_mem : c ∈ dead
  live : ∀ d ∈ dead, (h.component? d).isSome
  le : ∀ d ∈ dead, c.index ≤ d.index
  mem_of_isChild : ∀ {p d n}, p ∈ dead → h.IsChild p n d → d ∈ dead
  /-- From outside, a subtree is entered at its root only. -/
  eq_root : ∀ {p d n}, p ∉ dead → h.IsChild p n d → d ∈ dead → d = c

theorem TreeAgrees.isSubtree (ht : h.TreeAgrees) {c : ComponentId} (hc : (h.component? c).isSome) :
    h.IsSubtree c (h.subtree c) := by
  obtain ⟨order, -, -, hmem, hcollect⟩ := ht.exists_collectFrom_eq hc
  have hsubtree : ∀ d, d ∈ h.subtree c ↔ Inside h.above? d c := by
    intro d
    unfold subtree
    rw [hcollect, List.mem_filter, hmem]
    refine and_iff_left_of_imp fun hd => ?_
    obtain ⟨node, hnode⟩ := Option.isSome_iff_exists.1 (live_of_inside hd hc)
    rw [hnode]
    rfl
  refine ⟨(hsubtree c).2 .refl, fun d hd => live_of_inside ((hsubtree d).1 hd) hc,
    fun d hd => ht.isForest.rank_le ((hsubtree d).1 hd), fun hp hd => ?_, fun hp hd hmem => ?_⟩
  · exact (hsubtree _).2 (.head (exists_isChild_iff.1 ⟨_, hd⟩) ((hsubtree _).1 hp))
  · rcases Relation.ReflTransGen.cases_head ((hsubtree _).1 hmem) with heq | ⟨q, hq, hqc⟩
    · exact heq
    · obtain rfl := Option.some.inj (hq.symm.trans (exists_isChild_iff.1 ⟨_, hd⟩))
      exact absurd ((hsubtree _).2 hqc) hp

theorem IsSubtree.top_not_mem {c : ComponentId} {dead : List ComponentId}
    (hs : h.IsSubtree c dead) (hc : c ≠ top) : top ∉ dead := by
  intro hmem
  have hindex : c.index = 0 := Nat.le_zero.1 (hs.le top hmem)
  exact hc (congrArg ComponentId.mk hindex)

end Hierarchy

end Cyclewise
