import Mathlib.Data.List.Sort
import Cyclewise.Proofs.Hierarchy.Scripts

/-!
# Removal takes an addition back

A component is added, the hierarchy is edited in and below it, and the component is removed again.
Its number and the numbers of all that came after it tell what is new: the subtree of the component
holds the new live components, these own the new live blocks, and the constraints that came in were
declared by a new component or mention a new block (`Grown`).  Each edit inside the subtree keeps
this, and the removal takes out just what is new, so the hierarchy shows what it showed before
(`removal_restores`).
-/

namespace Cyclewise

attribute [ext] Component

namespace Hierarchy

variable {μ : Type} {h h' k : Hierarchy μ}

/-! ## Edits inside a subtree -/

/-- Whether a constraint mentions a block of the subtree of a component. -/
def Mentions (h : Hierarchy μ) (c : ComponentId) (k : Constraint) : Prop :=
  k.before ∈ h.blocksOf (h.subtree c) ∨ k.after ∈ h.blocksOf (h.subtree c)

/-- Whether a request stays inside the subtree of a component: it adds there, removes below the
component, or declares constraints that the subtree declares itself or that mention its blocks. -/
def Request.Inside (h : Hierarchy μ) (c : ComponentId) : Request μ → Prop
  | addComponent parent _ => parent ∈ h.subtree c
  | removeComponent d => d ∈ h.subtree c ∧ d ≠ c
  | removeComponentNamed parent name =>
    ∀ d, h.childNamed? parent name = some d → d ∈ h.subtree c ∧ d ≠ c
  | registerBlock owner _ => owner ∈ h.subtree c
  | addConstraint owner before after => owner ∈ h.subtree c ∨ h.Mentions c ⟨before, after⟩
  | addConstraints owner pairs => owner ∈ h.subtree c ∨ ∀ k ∈ pairs, h.Mentions c k

/-- Whether an operation stays inside the subtree of a component; what is refused, and what is no
request, changes nothing anyway. -/
def Operation.Inside (h : Hierarchy μ) (c : ComponentId) : Operation μ → Prop
  | request r => ∀ grant, (h.request r).1 = .ok grant → r.Inside h c
  | ask _ | aggregate => True

/-- Whether operations, done in order, all stay inside the subtree of a component. -/
def StaysInside (c : ComponentId) (h : Hierarchy μ) : List (Operation μ) → Prop
  | [] => True
  | op :: rest => op.Inside h c ∧ StaysInside c (h.perform op).2 rest

theorem removeComponentNamed_eq_ok {parent : ComponentId} {name : String}
    (he : h.removeComponentNamed parent name = .ok h') :
    ∃ c, h.childNamed? parent name = some c ∧ h.removeComponent c = .ok h' := by
  unfold removeComponentNamed at he
  split at he
  · next c hc => exact ⟨c, hc, he⟩
  · cases he

/-! ## What is new -/

/-- The live components from the number `n` on hang together: all but the first, which is the child
`name` of `parent`, are below others of them. -/
structure Sprouts (n : Nat) (parent : ComponentId) (name : String) (h : Hierarchy μ) : Prop where
  root : ∃ node, h.component? ⟨n⟩ = some node ∧ node.parent = some parent ∧ node.name = name
  below : ∀ d node, h.component? d = some node → n < d.index →
    ∃ p, node.parent = some p ∧ n ≤ p.index

namespace Sprouts

variable {n : Nat} {parent : ComponentId} {name : String} (hs : h.Sprouts n parent name)

include hs

/-- The subtree of the first holds them all. -/
theorem mem_subtree (ht : h.TreeAgrees) {d : ComponentId} :
    d ∈ h.subtree ⟨n⟩ ↔ n ≤ d.index ∧ (h.component? d).isSome := by
  obtain ⟨root, hroot, -⟩ := hs.root
  have hsub := ht.isSubtree (c := ⟨n⟩) (by rw [hroot]; rfl)
  constructor
  · exact fun hd => ⟨hsub.le d hd, hsub.live d hd⟩
  · -- by induction on the number, which is greater than that of the parent
    induction hm : d.index using Nat.strong_induction_on generalizing d with
    | _ m ih =>
      rintro ⟨hle, hlive⟩
      obtain ⟨node, hnode⟩ := Option.isSome_iff_exists.1 hlive
      rcases Nat.eq_or_lt_of_le hle with heq | hlt
      · have hd : d = ⟨n⟩ := congrArg ComponentId.mk (hm.trans heq.symm)
        exact hd ▸ hsub.root_mem
      · obtain ⟨p, hp, hple⟩ := hs.below d node hnode (hm ▸ hlt)
        have hchild : h.IsChild p node.name d := ⟨node, hnode, hp, rfl⟩
        obtain ⟨hpd, hplive⟩ := ht.lt_of_isChild hchild
        have hpmem := ih p.index (by omega) rfl ⟨hple, hplive⟩
        exact hsub.mem_of_isChild hpmem hchild

theorem of_sameTree (hsame : h.SameTree h') : h'.Sprouts n parent name where
  root := by
    obtain ⟨root, hroot, hparent, hname⟩ := hs.root
    obtain ⟨root', hroot', hname', hparent', -⟩ := hsame.symm.of_new hroot
    exact ⟨root', hroot', hparent'.symm.trans hparent, hname'.symm.trans hname⟩
  below := by
    intro d node' hnode' hlt
    obtain ⟨old, hold, -, hparent, -⟩ := hsame.of_new hnode'
    rw [hparent]
    exact hs.below d old hold hlt

theorem addComponent {p c : ComponentId} {s : String} (he : h.addComponent p s = .ok (c, h'))
    (hp : n ≤ p.index) : h'.Sprouts n parent name where
  root := by
    obtain ⟨root, hroot, hparent, hname⟩ := hs.root
    obtain ⟨root', hroot', hparent', hname'⟩ := exists_component?_addComponent he hroot
    exact ⟨root', hroot', hparent'.trans hparent, hname'.trans hname⟩
  below := by
    intro d node' hnode' hlt
    rcases component?_addComponent he hnode' with ⟨rfl, rfl⟩ | ⟨old, hold, hparent, -⟩
    · exact ⟨p, rfl, hp⟩
    · rw [hparent]
      exact hs.below d old hold hlt

theorem removeComponent (ht : h.TreeAgrees) {d : ComponentId}
    (he : h.removeComponent d = .ok h') (hlt : n < d.index) : h'.Sprouts n parent name where
  root := by
    have hsub := isSubtree_removed he rfl ht
    have hnot : (⟨n⟩ : ComponentId) ∉ h.subtree d := fun hmem =>
      Nat.not_lt_of_le (hsub.le _ hmem) hlt
    obtain ⟨root, hroot, hparent, hname⟩ := hs.root
    obtain ⟨root', hroot', hparent', hname'⟩ :=
      exists_component?_removeComponent he rfl hroot hnot
    exact ⟨root', hroot', hparent'.trans hparent, hname'.trans hname⟩
  below := by
    intro x node' hnode' hx
    obtain ⟨-, old, hold, hparent, -⟩ := component?_removeComponent he rfl hnode'
    rw [hparent]
    exact hs.below x old hold hx

end Sprouts

/-- A constraint is newer than `h`: it was declared by a newer component, or it mentions a newer
block. -/
def isNewer (h : Hierarchy μ) (e : Constraint × ComponentId) : Bool :=
  decide (h.components.size ≤ e.2.index ∨ h.blocks.size ≤ e.1.before.index ∨
    h.blocks.size ≤ e.1.after.index)

/-- A component without its constraints, and for `parent` without the child `name`. -/
def trim (parent : ComponentId) (name : String) (d : ComponentId) (node : Component) : Component :=
  { node with
    children := if d = parent then node.children.erase name else node.children
    constraints := [] }

/-- `h'` is `h` with a new child `name` of `parent` and what has grown in its subtree. -/
structure Grown (parent : ComponentId) (name : String) (h h' : Hierarchy μ) : Prop where
  parent_free : ∃ node, h.component? parent = some node ∧ node.children.find? name = none
  tree : h'.Sprouts h.components.size parent name
  /-- Old components are as they were, apart from the new child and from constraints. -/
  outside : ∀ d, d.index < h.components.size →
    (h'.component? d).map (trim parent name d) = (h.component? d).map (trim parent name d)
  blocks_size : h.blocks.size ≤ h'.blocks.size
  entries : ∀ i, i < h.blocks.size → h'.blocks[i]? = h.blocks[i]?
  /-- New blocks are owned by new components. -/
  owners : ∀ b e, h'.entry? b = some e → h.blocks.size ≤ b.index →
    h.components.size ≤ e.owner.index
  constraints : h'.constraints.entries.filter (!h.isNewer ·) = h.constraints.entries

namespace Grown

variable {parent : ComponentId} {name : String}

section

variable (hg : h.Grown parent name h')

include hg

theorem components_size : h.components.size < h'.components.size := by
  obtain ⟨node, hnode, -⟩ := hg.tree.root
  exact lt_size_of_component? hnode

/-- The blocks of that subtree are the new live blocks. -/
theorem mem_blocksOf (hb : h.BlocksAgree) (hh' : h'.Invariant) {b : BlockId} :
    b ∈ h'.blocksOf (h'.subtree ⟨h.components.size⟩) ↔
      h.blocks.size ≤ b.index ∧ (h'.entry? b).isSome := by
  rw [hh'.blocks.mem_blocksOf]
  constructor
  · rintro ⟨e, he, howner⟩
    obtain ⟨hle, -⟩ := (hg.tree.mem_subtree hh'.tree).1 howner
    refine ⟨Nat.le_of_not_lt fun hlt => ?_, by rw [he]; rfl⟩
    -- an old block has an old owner
    obtain ⟨hentry, -⟩ := Option.filter_eq_some_iff.1 he
    rw [hg.entries b.index hlt] at hentry
    have := hb.owner_lt hentry
    omega
  · rintro ⟨hle, hlive⟩
    obtain ⟨e, he⟩ := Option.isSome_iff_exists.1 hlive
    exact ⟨e, he, (hg.tree.mem_subtree hh'.tree).2 ⟨hg.owners b e he hle, hh'.blocks.owner_live he⟩⟩

theorem isNewer_of_mentions (hb : h.BlocksAgree) (hh' : h'.Invariant) {c : Constraint}
    (hc : h'.Mentions ⟨h.components.size⟩ c) (owner : ComponentId) :
    h.isNewer (c, owner) = true := by
  refine decide_eq_true (.inr (hc.imp ?_ ?_))
  · exact fun hmem => ((hg.mem_blocksOf hb hh').1 hmem).1
  · exact fun hmem => ((hg.mem_blocksOf hb hh').1 hmem).1

/-! ## What edits in the subtree keep -/

theorem addComponent (hh' : h'.Invariant) {p c : ComponentId} {n : String}
    (he : h'.addComponent p n = .ok (c, k)) (hp : p ∈ h'.subtree ⟨h.components.size⟩) :
    h.Grown parent name k := by
  obtain ⟨node, hnode, -, hc, -, hcomponent, hblocks, hconstraints⟩ := addComponent_effect he
  obtain ⟨hple, -⟩ := (hg.tree.mem_subtree hh'.tree).1 hp
  have hsize := hg.components_size
  have hcindex : c.index = h'.components.size := by rw [hc]
  refine ⟨hg.parent_free, hg.tree.addComponent he hple, ?_, ?_, ?_, ?_, ?_⟩
  · intro d hlt
    have hdc : d ≠ c := by
      rintro rfl
      omega
    have hdp : d ≠ p := by
      rintro rfl
      omega
    rw [hcomponent, if_neg hdc, if_neg hdp]
    exact hg.outside d hlt
  · rw [hblocks]
    exact hg.blocks_size
  · rw [hblocks]
    exact hg.entries
  · intro b e hentry
    rw [entry?_addComponent he] at hentry
    exact hg.owners b e hentry
  · rw [hconstraints]
    exact hg.constraints

theorem registerBlock (hh' : h'.Invariant) {owner : ComponentId} {block : UpdateBlock μ}
    {b : BlockId} (he : h'.registerBlock owner block = .ok (b, k))
    (howner : owner ∈ h'.subtree ⟨h.components.size⟩) : h.Grown parent name k := by
  obtain ⟨node, hnode, -, hb, -, hcomponent, hblocks, hconstraints⟩ := registerBlock_effect he
  obtain ⟨hle, -⟩ := (hg.tree.mem_subtree hh'.tree).1 howner
  have hsize := hg.blocks_size
  refine ⟨hg.parent_free, hg.tree.of_sameTree (sameTree_registerBlock he), ?_, ?_, ?_, ?_, ?_⟩
  · intro d hlt
    have hd : d ≠ owner := by
      rintro rfl
      omega
    rw [hcomponent]
    simp only [if_neg hd, Option.map_id']
    exact hg.outside d hlt
  · rw [hblocks, Array.size_push]
    omega
  · intro i hi
    rw [hblocks, Array.getElem?_push, if_neg (by omega)]
    exact hg.entries i hi
  · intro x e hentry hx
    rw [entry?_registerBlock he] at hentry
    split at hentry
    · obtain rfl := Option.some.inj hentry
      exact hle
    · exact hg.owners x e hentry hx
  · rw [hconstraints]
    exact hg.constraints

theorem addConstraints (hb : h.BlocksAgree) (hh' : h'.Invariant) {owner : ComponentId}
    {pairs : List Constraint} (he : h'.addConstraints owner pairs = .ok k)
    (hpairs : owner ∈ h'.subtree ⟨h.components.size⟩ ∨
      ∀ c ∈ pairs, h'.Mentions ⟨h.components.size⟩ c) : h.Grown parent name k := by
  obtain ⟨-, -, -, hcomponent, hblocks, hentries⟩ := addConstraints_effect he
  refine ⟨hg.parent_free, hg.tree.of_sameTree (sameTree_addConstraints he), ?_, ?_, ?_, ?_, ?_⟩
  · intro d hlt
    rw [← hg.outside d hlt, hcomponent, Option.map_map]
    refine Option.map_congr fun node _ => ?_
    by_cases hd : d = owner
    · simp only [Function.comp_apply, if_pos hd]
      rfl
    · simp only [Function.comp_apply, if_neg hd]
  · rw [hblocks]
    exact hg.blocks_size
  · rw [hblocks]
    exact hg.entries
  · intro b e hentry
    rw [entry?_addConstraints he] at hentry
    exact hg.owners b e hentry
  · -- all declared constraints are new
    have hnew : (pairs.map fun c => (c, owner)).filter (!h.isNewer ·) = [] := by
      refine List.filter_eq_nil_iff.2 fun e hmem => ?_
      obtain ⟨c, hc, rfl⟩ := List.mem_map.1 hmem
      have hnewer : h.isNewer (c, owner) = true := by
        rcases hpairs with howner | hpairs
        · exact decide_eq_true (.inl ((hg.tree.mem_subtree hh'.tree).1 howner).1)
        · exact hg.isNewer_of_mentions hb hh' (hpairs c hc) owner
      simp [hnewer]
    rw [hentries, List.filter_append, hnew, List.append_nil]
    exact hg.constraints

theorem removeComponent (hb : h.BlocksAgree) (hh' : h'.Invariant) {d : ComponentId}
    (he : h'.removeComponent d = .ok k) (hd : d ∈ h'.subtree ⟨h.components.size⟩)
    (hne : d ≠ ⟨h.components.size⟩) : h.Grown parent name k := by
  obtain ⟨-, node, hnode, -, hcomponent, hblocks, hconstraints, hsize⟩ :=
    removeComponent_effect he rfl
  have hsub := isSubtree_removed he rfl hh'.tree
  have hlt : h.components.size < d.index := by
    have hle := ((hg.tree.mem_subtree hh'.tree).1 hd).1
    have hindex : d.index ≠ h.components.size := fun heq => hne (congrArg ComponentId.mk heq)
    omega
  have hdead : ∀ x ∈ h'.subtree d, h.components.size < x.index := fun x hx =>
    Nat.lt_of_lt_of_le hlt (hsub.le x hx)
  have hdeadBlock : ∀ b ∈ h'.blocksOf (h'.subtree d), h.blocks.size ≤ b.index := by
    intro b hmem
    obtain ⟨e, hentry, howner⟩ := hh'.blocks.mem_blocksOf.1 hmem
    have hlive := hh'.blocks.owner_live hentry
    have hnew := (hg.mem_blocksOf hb hh').1 (hh'.blocks.mem_blocksOf.2
      ⟨e, hentry, (hg.tree.mem_subtree hh'.tree).2 ⟨(hdead _ howner).le, hlive⟩⟩)
    exact hnew.1
  refine ⟨hg.parent_free, hg.tree.removeComponent hh'.tree he hlt, ?_, ?_, ?_, ?_, ?_⟩
  · intro x hx
    have hnot : x ∉ h'.subtree d := fun hmem => Nat.lt_asymm hx (hdead x hmem)
    -- the parent of what is removed is new
    have hparent : node.parent ≠ some x := by
      obtain ⟨p, hp, hple⟩ := hg.tree.below d node hnode hlt
      rw [hp]
      intro heq
      obtain rfl := Option.some.inj heq
      omega
    rw [← hg.outside x hx, hcomponent, if_neg hnot, Option.map_map]
    refine Option.map_congr fun old _ => ?_
    simp only [Function.comp_apply, if_neg hparent]
    rfl
  · rw [hsize]
    exact hg.blocks_size
  · intro i hi
    have hnot : (⟨i⟩ : BlockId) ∉ h'.blocksOf (h'.subtree d) := fun hmem =>
      Nat.lt_irrefl _ (Nat.lt_of_lt_of_le hi (hdeadBlock _ hmem))
    rw [hblocks, ← hg.entries i hi]
    simp [hnot]
  · intro b e hentry
    rw [entry?_removeComponent he rfl hh'.blocks] at hentry
    exact hg.owners b e (Option.filter_eq_some_iff.1 hentry).1
  · rw [hconstraints, ← hg.constraints]
    show (h'.constraints.entries.filter _).filter _ = _
    rw [List.filter_filter]
    refine List.filter_congr fun e _ => ?_
    -- whatever goes with the dead is new
    have hstale : stale (h'.subtree d) (h'.blocksOf (h'.subtree d)) e.1 e.2 = true →
        h.isNewer e = true := by
      intro hstale
      refine decide_eq_true ((of_decide_eq_true hstale).imp ?_ (Or.imp ?_ ?_))
      · exact fun hmem => (hdead _ hmem).le
      · exact hdeadBlock _
      · exact hdeadBlock _
    cases hnewer : h.isNewer e with
    | true => simp
    | false =>
      have hfresh := mt hstale (by rw [hnewer]; exact Bool.false_ne_true)
      simpa using hfresh

/-- A granted request inside the subtree. -/
theorem granted (hb : h.BlocksAgree) (hh' : h'.Invariant) {r : Request μ} {grant : Grant}
    (he : r.edit h' = .ok (grant, k)) (hr : r.Inside h' ⟨h.components.size⟩) :
    h.Grown parent name k := by
  cases r with
  | addComponent p n =>
    obtain ⟨⟨c, k'⟩, hk, heq⟩ := map_eq_ok he
    obtain ⟨-, rfl⟩ := Prod.mk.inj heq
    exact hg.addComponent hh' hk hr
  | removeComponent d =>
    obtain ⟨k', hk, heq⟩ := map_eq_ok he
    obtain ⟨-, rfl⟩ := Prod.mk.inj heq
    exact hg.removeComponent hb hh' hk hr.1 hr.2
  | removeComponentNamed p n =>
    obtain ⟨k', hk, heq⟩ := map_eq_ok he
    obtain ⟨-, rfl⟩ := Prod.mk.inj heq
    obtain ⟨d, hd, hk⟩ := removeComponentNamed_eq_ok hk
    obtain ⟨hmem, hne⟩ := hr d hd
    exact hg.removeComponent hb hh' hk hmem hne
  | registerBlock owner block =>
    obtain ⟨⟨b, k'⟩, hk, heq⟩ := map_eq_ok he
    obtain ⟨-, rfl⟩ := Prod.mk.inj heq
    exact hg.registerBlock hh' hk hr
  | addConstraint owner before after =>
    obtain ⟨k', hk, heq⟩ := map_eq_ok he
    obtain ⟨-, rfl⟩ := Prod.mk.inj heq
    refine hg.addConstraints hb hh' hk (hr.imp_right fun hmentions c hc => ?_)
    rw [List.mem_singleton.1 hc]
    exact hmentions
  | addConstraints owner pairs =>
    obtain ⟨k', hk, heq⟩ := map_eq_ok he
    obtain ⟨-, rfl⟩ := Prod.mk.inj heq
    exact hg.addConstraints hb hh' hk hr

theorem perform (hb : h.BlocksAgree) (hh' : h'.Built) {op : Operation μ}
    (hop : op.Inside h' ⟨h.components.size⟩) : h.Grown parent name (h'.perform op).2 := by
  cases op with
  | ask q => exact hg
  | aggregate =>
    exact ⟨hg.parent_free, ⟨hg.tree.root, hg.tree.below⟩, hg.outside, hg.blocks_size, hg.entries,
      hg.owners, hg.constraints⟩
  | request r =>
    show h.Grown parent name (h'.request r).2
    rcases hh'.request_cases r with ⟨grant, k, he, hrequest⟩ | ⟨e, -, hrequest⟩
    · have hinside : r.Inside h' ⟨h.components.size⟩ := hop grant (by rw [hrequest])
      rw [hrequest]
      exact hg.granted hb hh'.invariant he hinside
    · rw [hrequest]
      exact hg

theorem performAll (hb : h.BlocksAgree) (hh' : h'.Built) {ops : List (Operation μ)}
    (hops : h'.StaysInside ⟨h.components.size⟩ ops) :
    h.Grown parent name (h'.performAll ops).2 := by
  induction ops generalizing h' with
  | nil => exact hg
  | cons op rest ih =>
    obtain ⟨hop, hrest⟩ := hops
    exact ih (hg.perform hb hh' hop) (hh'.perform op) hrest

end

end Grown

/-- A component that was just added has nothing in its subtree. -/
theorem grown_of_addComponent (hh : h.Invariant) {parent c : ComponentId} {name : String}
    (he : h.addComponent parent name = .ok (c, h')) : h.Grown parent name h' := by
  obtain ⟨node, hparent, hfree, hc, -, hcomponent, hblocks, hconstraints⟩ := addComponent_effect he
  refine ⟨⟨node, hparent, hfree⟩, ⟨⟨Component.fresh name parent, ?_, rfl, rfl⟩, ?_⟩, ?_, ?_, ?_,
    ?_, ?_⟩
  · rw [hcomponent, if_pos hc.symm]
  · intro d node' hnode' hd
    rcases component?_addComponent he hnode' with ⟨rfl, -⟩ | ⟨old, hold, -⟩
    · rw [hc] at hd
      exact absurd hd (Nat.lt_irrefl _)
    · exact absurd (lt_size_of_component? hold) (Nat.lt_asymm hd)
  · intro d hd
    have hdc : d ≠ c := by
      rintro rfl
      rw [hc] at hd
      exact Nat.lt_irrefl _ hd
    rw [hcomponent, if_neg hdc]
    by_cases hdp : d = parent
    · subst hdp
      rw [if_pos rfl, hparent, Option.map_some, Option.map_some]
      simp only [trim, if_pos, OrderedMap.erase_insert hfree,
        OrderedMap.erase_of_find?_eq_none hfree]
    · rw [if_neg hdp]
  · rw [hblocks]
  · rw [hblocks]
    exact fun _ _ => rfl
  · intro b e hentry hle
    rw [entry?_addComponent he] at hentry
    obtain ⟨hentry, -⟩ := Option.filter_eq_some_iff.1 hentry
    obtain ⟨hb, -⟩ := Array.getElem?_eq_some_iff.1 hentry
    omega
  · -- a constraint of `h` was declared by a live component and relates live blocks
    rw [hconstraints]
    refine List.filter_eq_self.2 fun e hmem => ?_
    obtain ⟨-, hbefore, hafter, howner⟩ :=
      hh.constraints.related (OrderedMap.mem_entries_iff.1 (show (e.1, e.2) ∈ _ from hmem))
    have hbefore := lt_size_of_entry hbefore
    have hafter := lt_size_of_entry hafter
    obtain ⟨owner, howner⟩ := Option.isSome_iff_exists.1 howner
    have howner := lt_size_of_component? howner
    simp only [isNewer, Bool.not_eq_true', decide_eq_false_iff_not]
    omega

/-! ## Removal -/

/-- `h'` shows what `h` shows: the same aggregate, and the same live components and blocks with all
that they hold, children, blocks and constraints in order. -/
structure Restored (h h' : Hierarchy μ) : Prop where
  aggregate : h'.aggregate.1 = h.aggregate.1
  component? : ∀ c, h'.component? c = h.component? c
  entry? : ∀ b, h'.entry? b = h.entry? b
  constraints : h'.constraints = h.constraints

/-- The live blocks with the same owners are listed in the same order. -/
theorem liveOwners_congr (heq : ∀ b, h'.ownerOf? b = h.ownerOf? b) :
    h'.liveOwners = h.liveOwners := by
  have hascend : ∀ k : Hierarchy μ, k.liveOwners.Pairwise (·.1.index < ·.1.index) := by
    intro k
    have hblocks := List.pairwise_map.1 k.pairwise_blocks_flatten
    exact hblocks
  have : Std.Asymm fun x y : BlockId × ComponentId => x.1.index < y.1.index :=
    ⟨fun _ _ => Nat.lt_asymm⟩
  refine (hascend h').eq_of_mem_iff (hascend h) fun e => ?_
  rw [show e = (e.1, e.2) from rfl, mem_liveOwners, mem_liveOwners, heq]

theorem exists_removeComponent {c : ComponentId} (hc : c ≠ top) (hlive : (h.component? c).isSome) :
    ∃ k, h.removeComponent c = .ok k := by
  obtain ⟨node, hnode⟩ := Option.isSome_iff_exists.1 hlive
  have hnode : h.component c = .ok node := by
    unfold component
    rw [hnode]
  unfold removeComponent
  rw [if_neg hc, hnode]
  exact ⟨_, rfl⟩

namespace Grown

variable {parent : ComponentId} {name : String} (hg : h.Grown parent name h')

include hg

/-- The parent had no child of the name before. -/
theorem trim_eq {d : ComponentId} {node : Component} (hd : h.component? d = some node) :
    trim parent name d node = { node with constraints := [] } := by
  unfold trim
  by_cases hdp : d = parent
  · obtain ⟨first, hfirst, hfree⟩ := hg.parent_free
    rw [hdp, hfirst] at hd
    obtain rfl := Option.some.inj hd
    rw [if_pos hdp, OrderedMap.erase_of_find?_eq_none hfree]
  · rw [if_neg hdp]

theorem exists_removeComponent : ∃ k, h'.removeComponent ⟨h.components.size⟩ = .ok k := by
  refine Hierarchy.exists_removeComponent ?_ ?_
  · intro heq
    have hsize : h.components.size = 0 := congrArg ComponentId.index heq
    obtain ⟨node, hparent, -⟩ := hg.parent_free
    have := lt_size_of_component? hparent
    omega
  · obtain ⟨node, hnode, -⟩ := hg.tree.root
    rw [hnode]
    rfl

variable (hh : h.Invariant) (hh' : h'.Invariant)
  (he : h'.removeComponent ⟨h.components.size⟩ = .ok k)

include hh hh' he

theorem entry?_eq (b : BlockId) : k.entry? b = h.entry? b := by
  rw [entry?_removeComponent he rfl hh'.blocks]
  by_cases hb : b.index < h.blocks.size
  · have hsame : h'.entry? b = h.entry? b := by
      unfold Hierarchy.entry?
      rw [hg.entries b.index hb]
    rw [hsame]
    cases hentry : h.entry? b with
    | none => rfl
    | some e =>
      have howner : e.owner ∉ h'.subtree ⟨h.components.size⟩ := by
        intro hmem
        have hle := ((hg.tree.mem_subtree hh'.tree).1 hmem).1
        have := hh.blocks.owner_lt (Option.filter_eq_some_iff.1 hentry).1
        omega
      rw [Option.filter_some, if_pos (decide_eq_true howner)]
  · have hnone : h.entry? b = none := by
      unfold Hierarchy.entry?
      rw [Array.getElem?_eq_none (by omega)]
      rfl
    rw [hnone]
    refine Option.filter_eq_none_iff.2 fun e hentry => ?_
    have howner := (hg.tree.mem_subtree hh'.tree).2
      ⟨hg.owners b e hentry (by omega), hh'.blocks.owner_live hentry⟩
    simp [howner]

/-- What goes with the subtree is what came in with it. -/
theorem constraints_eq : k.constraints = h.constraints := by
  obtain ⟨-, _, -, -, -, -, hconstraints, -⟩ := removeComponent_effect he rfl
  apply OrderedMap.ext
  rw [hconstraints, ← hg.constraints]
  show h'.constraints.entries.filter _ = _
  refine List.filter_congr fun e hmem => congrArg (! ·) ?_
  obtain ⟨-, hbefore, hafter, howner⟩ :=
    hh'.constraints.related (OrderedMap.mem_entries_iff.1 (show (e.1, e.2) ∈ _ from hmem))
  unfold stale isNewer
  refine decide_eq_decide.2 ?_
  rw [hg.tree.mem_subtree hh'.tree, hg.mem_blocksOf hh.blocks hh', hg.mem_blocksOf hh.blocks hh']
  simp [hbefore, hafter, howner]

theorem component?_eq (d : ComponentId) : k.component? d = h.component? d := by
  obtain ⟨-, node, hnode, -, hcomponent, -⟩ := removeComponent_effect he rfl
  by_cases hd : d.index < h.components.size
  · have hnot : d ∉ h'.subtree ⟨h.components.size⟩ := fun hmem =>
      absurd ((hg.tree.mem_subtree hh'.tree).1 hmem).1 (by omega)
    obtain ⟨hparent, hname⟩ : node.parent = some parent ∧ node.name = name := by
      obtain ⟨root, hroot, hrest⟩ := hg.tree.root
      obtain rfl := Option.some.inj (hroot.symm.trans hnode)
      exact hrest
    have houtside := hg.outside d hd
    have hfound := hcomponent d
    rw [if_neg hnot] at hfound
    cases hold : h'.component? d with
    | none =>
      rw [hold] at houtside hfound
      rw [hfound, Option.map_eq_none_iff.1 houtside.symm]
      rfl
    | some old =>
      rw [hold, Option.map_some] at houtside hfound
      obtain ⟨first, hfirst, htrim⟩ := Option.map_eq_some_iff.1 houtside.symm
      rw [hg.trim_eq hfirst] at htrim
      have hdeclared := (hh'.removeComponent he rfl).constraints.declared hfound
      rw [hg.constraints_eq hh hh' he, ← hh.constraints.declared hfirst] at hdeclared
      unfold trim at htrim
      obtain ⟨hname', hparent', hchildren, hblocks, -, halive⟩ := Component.mk.inj htrim
      rw [hfound, hfirst]
      refine congrArg some (Component.ext hname'.symm hparent'.symm ?_ hblocks.symm hdeclared
        halive.symm)
      show (if node.parent = some d then old.children.erase node.name else old.children) = _
      rw [hparent, hname, hchildren]
      simp only [Option.some.injEq, eq_comm]
  · have hnone : h.component? d = none := by
      unfold Hierarchy.component?
      rw [Array.getElem?_eq_none (by omega)]
      rfl
    rw [hnone, hcomponent]
    split
    · rfl
    · next hnot =>
      rw [hg.tree.mem_subtree hh'.tree] at hnot
      have hdead : h'.component? d = none := by
        rw [← Option.not_isSome_iff_eq_none]
        exact fun hlive => hnot ⟨by omega, hlive⟩
      rw [hdead]
      rfl

/-- The removal takes the hierarchy back to what it showed before the addition. -/
theorem restored (hbuilt : h.Built) (hk : k.Built) : h.Restored k where
  aggregate := by
    have howner : ∀ b, k.ownerOf? b = h.ownerOf? b := fun b =>
      congrArg (Option.map BlockEntry.owner) (hg.entry?_eq hh hh' he b)
    show k.flattened = h.flattened
    rw [hk.flattened_eq, hbuilt.flattened_eq]
    unfold flatten
    rw [liveOwners_congr howner, hg.constraints_eq hh hh' he]
  component? := hg.component?_eq hh hh' he
  entry? := hg.entry?_eq hh hh' he
  constraints := hg.constraints_eq hh hh' he

end Grown

/-- A request is granted in place as it is when all is checked before anything changes. -/
theorem Built.request_eq_ok_iff (hh : h.Built) {r : Request μ} {grant : Grant} :
    h.request r = (.ok grant, k) ↔ r.edit h = .ok (grant, k) := by
  rcases hh.request_cases r with ⟨grant', k', he, hrequest⟩ | ⟨e, he, hrequest⟩
  · rw [he, hrequest]
    simp only [Prod.mk.injEq, Except.ok.injEq]
  · rw [he, hrequest]
    simp only [Prod.mk.injEq, reduceCtorEq, false_and]

/-- **Removal takes an addition back.**  Whatever was done with a hierarchy before, let a component
be added and let any operations stay inside its subtree.  Then it can be removed, and afterwards the
hierarchy shows what it showed before the addition. -/
theorem removal_restores (first : String) (ops : List (Operation μ)) {parent c : ComponentId}
    {name : String} (hadd : (after first ops).request (.addComponent parent name) =
      (.ok (.component c), h)) {edits : List (Operation μ)} (hedits : h.StaysInside c edits) :
    ∃ k, (h.performAll edits).2.request (.removeComponent c) = (.ok .nothing, k) ∧
      (after first ops).Restored k := by
  have hbuilt : (after first ops : Hierarchy μ).Built := built_after first ops
  have hadded := hbuilt.request_eq_ok_iff.1 hadd
  obtain ⟨⟨c', h'⟩, he, heq⟩ := map_eq_ok hadded
  obtain ⟨hc, rfl⟩ := Prod.mk.inj heq
  obtain rfl := Grant.component.inj hc
  have hnew : c' = ⟨(after first ops : Hierarchy μ).components.size⟩ := by
    obtain ⟨_, -, -, hnew, -⟩ := addComponent_effect he
    exact hnew
  subst hnew
  have hnext := (hbuilt.addComponent he).performAll edits
  have hgrown := (grown_of_addComponent hbuilt.invariant he).performAll hbuilt.invariant.blocks
    (hbuilt.addComponent he) hedits
  obtain ⟨k, hk⟩ := hgrown.exists_removeComponent
  refine ⟨k, hnext.request_eq_ok_iff.2 ?_, ?_⟩
  · rw [Request.edit, hk]
    rfl
  · exact hgrown.restored hbuilt.invariant hnext.invariant hk hbuilt (hnext.removeComponent hk)

/-- A component with a block, which is constrained against a block of the top. -/
def settling : List (Operation Unit) :=
  [.request (.addComponent top "a"), .request (.registerBlock ⟨1⟩ (.copy "x" ⟨0⟩ ⟨1⟩)),
    .request (.registerBlock top (.copy "y" ⟨1⟩ ⟨2⟩)), .request (.addConstraint top ⟨0⟩ ⟨1⟩)]

/-- A block in the new component 2, and a child that comes and goes with another block.  Constraints
join these blocks to the older ones, and the last constraint joins two of the older ones. -/
def passing : List (Operation Unit) :=
  [.request (.registerBlock ⟨2⟩ (.copy "u" ⟨2⟩ ⟨3⟩)), .request (.addComponent ⟨2⟩ "d"),
    .request (.registerBlock ⟨3⟩ (.copy "v" ⟨3⟩ ⟨4⟩)), .aggregate,
    .request (.addConstraints ⟨1⟩ [⟨⟨1⟩, ⟨3⟩⟩, ⟨⟨2⟩, ⟨0⟩⟩]),
    .request (.removeComponentNamed ⟨2⟩ "d"), .request (.addConstraint ⟨2⟩ ⟨1⟩ ⟨0⟩)]

theorem settling_restores :
    let h := ((after "top" settling).request (.addComponent top "c")).2
    h.StaysInside ⟨2⟩ passing ∧
      ∃ k, (h.performAll passing).2.request (.removeComponent ⟨2⟩) = (.ok .nothing, k) ∧
        (after "top" settling).Restored k ∧
        k.aggregate.1 = ⟨[(⟨0⟩, ⟨1⟩), (⟨1⟩, top)], [⟨⟨0⟩, ⟨1⟩⟩]⟩ := by
  intro h
  have hinside : h.StaysInside ⟨2⟩ passing := by
    refine ⟨fun _ _ => ?_, fun _ _ => ?_, fun _ _ => ?_, trivial, fun _ _ => .inr fun k hk => ?_,
      fun _ _ d hd => ?_, fun _ _ => .inl ?_, trivial⟩
    · show _ ∈ _
      decide
    · show _ ∈ _
      decide
    · show _ ∈ _
      decide
    · rcases List.mem_cons.1 hk with rfl | hk
      · exact .inr (by decide)
      · rw [List.mem_singleton.1 hk]
        exact .inl (by decide)
    · have hfound : some d = some (⟨3⟩ : ComponentId) := hd.symm.trans (by decide +kernel)
      rw [Option.some.inj hfound]
      exact ⟨by decide +kernel, by decide⟩
    · decide +kernel
  have hadd : (after "top" settling).request (.addComponent top "c") =
      (.ok (.component ⟨2⟩), h) := rfl
  obtain ⟨k, hk, hrestored⟩ := removal_restores "top" settling hadd hinside
  exact ⟨hinside, k, hk, hrestored, hrestored.aggregate.trans rfl⟩

end Hierarchy

end Cyclewise
