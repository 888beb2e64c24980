import Cyclewise.Proofs.DepthFirst
import Cyclewise.Proofs.Numbers
import Cyclewise.Signal.Table

/-!
# The forest of parts

In a table that arose from declarations (`SignalTable.Built`) a part has a greater number than its
whole, and the lists of parts agree with the wholes named in the declarations (`Forest`).  So
`ancestors` lists everything that a signal is part of, and `descendants` all its parts, in pre-order
(`Forest.depthFirst_descendants`).
-/

namespace Cyclewise

namespace SignalTable

/-- The tables that declarations lead to. -/
inductive Built : SignalTable → Prop where
  | empty : Built ∅
  | declare {t t' s} (ht : Built t) {path kind typeName owner}
      (h : t.declare path kind typeName owner = .ok (s, t')) : Built t'
  | declareChild {t t' s} (ht : Built t) {parent suffix typeName}
      (h : t.declareChild parent suffix typeName = .ok (s, t')) : Built t'

/-- Parts have greater numbers than wholes and are listed by their wholes, ascending. -/
structure Forest (t : SignalTable) : Prop where
  parts_size : t.parts.size = t.defs.size
  parent_lt : ∀ {s p}, t.parent? s = some p → p.index < s.index
  mem_children : ∀ {s p}, s ∈ t.children p ↔ t.parent? s = some p
  children_ascend : ∀ p, (t.children p).Pairwise (·.index < ·.index)

/-! ## Declarations -/

theorem exists_get?_iff {t : SignalTable} {s : SignalId} :
    (∃ d, t.get? s = some d) ↔ s.index < t.size :=
  ⟨fun ⟨_, h⟩ => (Array.getElem?_eq_some_iff.1 h).1, fun h => ⟨_, Array.getElem?_eq_getElem h⟩⟩

theorem lt_size_of_get? {t : SignalTable} {s : SignalId} {d : SignalDef}
    (h : t.get? s = some d) : s.index < t.size := exists_get?_iff.1 ⟨d, h⟩

theorem insert_eq_ok {t t' : SignalTable} {d : SignalDef} {s : SignalId}
    (h : t.insert d = .ok (s, t')) :
    s = ⟨t.size⟩ ∧ t'.defs = t.defs.push d ∧
      t'.parts = (match d.parent with
        | some p => t.parts.modify p.index (· ++ [(⟨t.size⟩ : SignalId)])
        | none => t.parts).push [] := by
  unfold insert at h
  split at h
  · cases h
  · split at h
    · cases h
    · obtain ⟨rfl, rfl⟩ := Prod.mk.inj (Except.ok.inj h)
      exact ⟨rfl, rfl, rfl⟩

/-- The index learns of a path that it does not hold. -/
theorem byPath_insert {t t' : SignalTable} {d : SignalDef} {s : SignalId}
    (h : t.insert d = .ok (s, t')) :
    d.path ∉ t.byPath.keys ∧ t'.byPath = t.byPath.insert d.path s := by
  unfold insert at h
  split at h
  · cases h
  · next hpath =>
    split at h
    · cases h
    · obtain ⟨rfl, rfl⟩ := Prod.mk.inj (Except.ok.inj h)
      exact ⟨by simpa [OrderedMap.contains] using hpath, rfl⟩

theorem get?_insert {t t' : SignalTable} {d : SignalDef} {s : SignalId}
    (h : t.insert d = .ok (s, t')) (a : SignalId) :
    t'.get? a = if a.index = t.size then some d else t.get? a := by
  obtain ⟨-, hdefs, -⟩ := insert_eq_ok h
  unfold get?
  rw [hdefs, Array.getElem?_push]
  rfl

theorem size_insert {t t' : SignalTable} {d : SignalDef} {s : SignalId}
    (h : t.insert d = .ok (s, t')) : t'.size = t.size + 1 := by
  obtain ⟨-, hdefs, -⟩ := insert_eq_ok h
  unfold size
  rw [hdefs, Array.size_push]

/-- A table still has the declarations of an earlier one. -/
def Extends (t' t : SignalTable) : Prop := ∀ a d, t.get? a = some d → t'.get? a = some d

theorem Extends.refl (t : SignalTable) : t.Extends t := fun _ _ ha => ha

theorem Extends.trans {t t' t'' : SignalTable} (h : t''.Extends t') (h' : t'.Extends t) :
    t''.Extends t :=
  fun a d ha => h a d (h' a d ha)

theorem Extends.get?_eq {t t' : SignalTable} (h : t'.Extends t) {a : SignalId}
    (ha : a.index < t.size) : t'.get? a = t.get? a := by
  obtain ⟨d, hd⟩ := exists_get?_iff.2 ha
  rw [hd, h a d hd]

theorem Extends.lt_size {t t' : SignalTable} (h : t'.Extends t) {a : SignalId}
    (ha : a.index < t.size) : a.index < t'.size := by
  obtain ⟨d, hd⟩ := exists_get?_iff.2 ha
  exact lt_size_of_get? (h a d hd)

theorem Extends.size_le {t t' : SignalTable} (h : t'.Extends t) : t.size ≤ t'.size := by
  by_contra hlt
  exact Nat.lt_irrefl _ (h.lt_size (a := ⟨t'.size⟩) (Nat.lt_of_not_le hlt))

theorem extends_insert {t t' : SignalTable} {d : SignalDef} {s : SignalId}
    (h : t.insert d = .ok (s, t')) : t'.Extends t := by
  intro a d' ha
  have hne : a.index ≠ t.size := Nat.ne_of_lt (lt_size_of_get? ha)
  rw [get?_insert h, if_neg hne, ha]

theorem exists_insert_of_declareChild {t t' : SignalTable} {parent s : SignalId}
    {suffix typeName : String} (h : t.declareChild parent suffix typeName = .ok (s, t')) :
    ∃ d, t.insert d = .ok (s, t') ∧ ∀ p, d.parent = some p → p.index < t.size := by
  unfold declareChild at h
  split at h
  · cases h
  · next whole hwhole =>
    refine ⟨_, h, fun p hp => ?_⟩
    exact Option.some.inj hp ▸ lt_size_of_get? hwhole

theorem parent?_insert {t t' : SignalTable} {d : SignalDef} {s : SignalId}
    (h : t.insert d = .ok (s, t')) (a : SignalId) :
    t'.parent? a = if a.index = t.size then d.parent else t.parent? a := by
  unfold parent?
  rw [get?_insert h]
  split <;> rfl

theorem lt_size_of_parent? {t : SignalTable} {s p : SignalId} (h : t.parent? s = some p) :
    s.index < t.size := by
  obtain ⟨d, hd, -⟩ := Option.bind_eq_some_iff.1 h
  exact lt_size_of_get? hd

/-- A declared signal is appended to the parts of its whole. -/
theorem Forest.children_insert {t t' : SignalTable} (ht : t.Forest) {d : SignalDef} {s : SignalId}
    (hparent : ∀ p, d.parent = some p → p.index < t.size) (h : t.insert d = .ok (s, t'))
    (p : SignalId) :
    t'.children p = if d.parent = some p then t.children p ++ [⟨t.size⟩] else t.children p := by
  obtain ⟨-, -, hparts⟩ := insert_eq_ok h
  have hpush : ∀ (parts : Array (List SignalId)) (i : Nat),
      (parts.push []).getD i [] = parts.getD i [] := by
    intro parts i
    rw [Array.getD_eq_getD_getElem?, Array.getD_eq_getD_getElem?, Array.getElem?_push]
    split
    · next hi => simp [hi]
    · rfl
  unfold children
  rw [hparts, hpush]
  cases hwhole : d.parent with
  | none => simp
  | some q =>
    have hq : q.index < t.parts.size := ht.parts_size.symm ▸ hparent q hwhole
    simp only [Array.getD_eq_getD_getElem?, Array.getElem?_modify, Option.some.injEq]
    by_cases hqp : q = p
    · subst hqp
      simp [hq]
    · have hne : q.index ≠ p.index := by
        intro hindex
        cases q
        cases p
        exact hqp (congrArg SignalId.mk hindex)
      rw [if_neg hne, if_neg hqp]

theorem Forest.of_insert {t t' : SignalTable} (ht : t.Forest) {d : SignalDef} {s : SignalId}
    (hparent : ∀ p, d.parent = some p → p.index < t.size) (h : t.insert d = .ok (s, t')) :
    t'.Forest := by
  have hout : ∀ p, t.parent? ⟨t.size⟩ ≠ some p := fun p hp =>
    absurd (lt_size_of_parent? hp) (Nat.lt_irrefl _)
  have hmem : ∀ {a p}, a ∈ t'.children p ↔ t'.parent? a = some p := by
    intro a p
    rw [ht.children_insert hparent h, parent?_insert h]
    by_cases ha : a.index = t.size
    · have hat : a = ⟨t.size⟩ := by rw [← ha]
      subst hat
      have hnot : (⟨t.size⟩ : SignalId) ∉ t.children p := fun hc => hout p (ht.mem_children.1 hc)
      rw [if_pos ha]
      split
      · next hp => simp [hp]
      · next hp => simp [hp, hnot]
    · have hat : a ≠ ⟨t.size⟩ := fun e => ha (by rw [e])
      rw [if_neg ha, ← ht.mem_children]
      split
      · simp [hat]
      · rfl
  refine ⟨?_, fun {a p} ha => ?_, hmem, fun p => ?_⟩
  · obtain ⟨-, hdefs, hparts⟩ := insert_eq_ok h
    rw [hdefs, hparts, Array.size_push, Array.size_push, ← ht.parts_size]
    split
    · rw [Array.size_modify]
    · rfl
  · rw [parent?_insert h] at ha
    split at ha
    · next hindex => exact hindex ▸ hparent p ha
    · exact ht.parent_lt ha
  · rw [ht.children_insert hparent h]
    split
    · refine List.pairwise_append.2 ⟨ht.children_ascend p, List.pairwise_singleton .., ?_⟩
      intro a ha b hb
      rw [List.mem_singleton] at hb
      subst hb
      exact lt_size_of_parent? (ht.mem_children.1 ha)
    · exact ht.children_ascend p

theorem Built.forest {t : SignalTable} (ht : t.Built) : t.Forest := by
  induction ht with
  | empty =>
    have hparent : ∀ s, (∅ : SignalTable).parent? s = none := fun _ => rfl
    have hchildren : ∀ p, (∅ : SignalTable).children p = [] := fun _ => rfl
    refine ⟨rfl, fun {s p} h => ?_, fun {s p} => ?_, fun p => ?_⟩
    · rw [hparent] at h
      cases h
    · rw [hparent, hchildren]
      simp
    · rw [hchildren]
      exact List.Pairwise.nil
  | declare _ h ih =>
    refine ih.of_insert (fun p hp => ?_) h
    cases hp
  | declareChild _ h ih =>
    obtain ⟨d, h, hparent⟩ := exists_insert_of_declareChild h
    exact ih.of_insert hparent h

/-! ## Parts and wholes -/

/-- The signal is part of `whole`, directly or not. -/
def PartOf (t : SignalTable) : SignalId → SignalId → Prop :=
  Relation.TransGen fun s p => t.parent? s = some p

/-- The signal is `whole` or part of it. -/
def Within (t : SignalTable) : SignalId → SignalId → Prop :=
  Relation.ReflTransGen fun s p => t.parent? s = some p

/-- Two signals share storage: they are equal, or one is part of the other. -/
def SharesStorage (t : SignalTable) (s s' : SignalId) : Prop :=
  s = s' ∨ t.PartOf s s' ∨ t.PartOf s' s

theorem SharesStorage.symm {t : SignalTable} {s s' : SignalId} (h : t.SharesStorage s s') :
    t.SharesStorage s' s := by
  rcases h with h | h | h
  · exact .inl h.symm
  · exact .inr (.inr h)
  · exact .inr (.inl h)

namespace Forest

variable {t : SignalTable} (ht : t.Forest)

include ht

theorem isForest : IsForest t.parent? t.children SignalId.index where
  mem_children := ht.mem_children
  nodup_children p := nodup_of_ascending (ht.children_ascend p)
  rank_lt := ht.parent_lt

theorem index_le {s p : SignalId} (h : t.Within s p) : p.index ≤ s.index := ht.isForest.rank_le h

/-- Later declarations do not change what a signal is part of. -/
theorem partOf_extends {t' : SignalTable} (h : t'.Extends t) {s whole : SignalId}
    (hs : s.index < t.size) : t'.PartOf s whole ↔ t.PartOf s whole := by
  have hparent : ∀ {a : SignalId}, a.index < t.size → t'.parent? a = t.parent? a := fun ha => by
    unfold parent?
    rw [h.get?_eq ha]
  constructor
  · intro hpart
    induction hpart with
    | single hlink =>
      rw [hparent hs] at hlink
      exact .single hlink
    | tail _ hlink ih =>
      -- a whole has a smaller number, so it is declared as well
      have hle := ht.index_le ih.to_reflTransGen
      rw [hparent (by omega)] at hlink
      exact ih.tail hlink
  · refine Relation.TransGen.mono (fun a p hlink => ?_) s whole
    rwa [hparent (lt_size_of_parent? hlink)]

theorem sharesStorage_extends {t' : SignalTable} (h : t'.Extends t) {s s' : SignalId}
    (hs : s.index < t.size) (hs' : s'.index < t.size) :
    t'.SharesStorage s s' ↔ t.SharesStorage s s' := by
  unfold SharesStorage
  rw [ht.partOf_extends h hs, ht.partOf_extends h hs']

end Forest

/-! ## The loops up and down -/

/-- With fuel for all that the loop lists, it comes to its end. -/
theorem climb_eq {t : SignalTable} {fuel : Nat} {start : Option SignalId} {out : List SignalId}
    (h : ParentLoop t.parent? start out) (hfuel : out.length ≤ fuel) :
    t.climb fuel start = out := by
  induction h generalizing fuel with
  | done => cases fuel <;> rfl
  | step _ ih =>
    cases fuel with
    | zero => cases hfuel
    | succ fuel => rw [climb, ih (Nat.le_of_succ_le_succ hfuel)]

theorem unfold_eq {t : SignalTable} {fuel : Nat} {stack out : List SignalId}
    (h : StackLoop t.children stack out) (hfuel : out.length ≤ fuel) :
    t.unfold fuel stack = out := by
  induction h generalizing fuel with
  | done => cases fuel <;> rfl
  | step _ ih =>
    cases fuel with
    | zero => cases hfuel
    | succ fuel => rw [SignalTable.unfold, ih (Nat.le_of_succ_le_succ hfuel)]

theorem lt_size_of_within {t : SignalTable} {x s : SignalId} (h : t.Within x s)
    (hs : s.index < t.size) : x.index < t.size := by
  rcases Relation.ReflTransGen.cases_head h with rfl | ⟨p, hp, -⟩
  · exact hs
  · exact lt_size_of_parent? hp

namespace Forest

variable {t : SignalTable} (ht : t.Forest)

include ht

/-- The ancestors of a signal are listed from parent to parent, until there is none. -/
theorem parentLoop_ancestors (s : SignalId) :
    ParentLoop t.parent? (t.parent? s) (t.ancestors s) := by
  unfold ancestors
  cases hp : t.parent? s with
  | none => cases t.size <;> exact .done
  | some p =>
    have hlt := ht.parent_lt hp
    have hsize := lt_size_of_parent? hp
    obtain ⟨out, hout, hlength⟩ := ht.isForest.exists_parentLoop p
    rw [climb_eq hout (by omega)]
    exact hout

/-- The ancestors of a signal are what it is part of. -/
theorem mem_ancestors {s x : SignalId} : x ∈ t.ancestors s ↔ t.PartOf s x := by
  have hstep : t.PartOf s x ↔ ∃ p, t.parent? s = some p ∧ t.Within p x :=
    Relation.TransGen.head'_iff
  rw [hstep]
  exact (ht.parentLoop_ancestors s).mem_iff

/-- The descendants of a signal are listed in pre-order. -/
theorem depthFirst_descendants (s : SignalId) :
    DepthFirst t.children (t.children s) (t.descendants s) := by
  obtain ⟨out, hout⟩ := ht.isForest.exists_depthFirst lt_size_of_parent? (t.children s)
  have hnodup := ht.isForest.nodup hout (ht.isForest.children_apart s)
  have hlt : ∀ x ∈ out, x.index < t.size := fun x hx => by
    obtain ⟨c, hc, hxc⟩ := (ht.isForest.mem_iff hout).1 hx
    exact lt_size_of_within hxc (lt_size_of_parent? (ht.mem_children.1 hc))
  have hlength := length_le_of_nodup (fun _ _ => congrArg SignalId.mk) hnodup hlt
  rw [descendants, unfold_eq (stackLoop_iff_depthFirst.2 hout) hlength]
  exact hout

/-- The descendants of a signal are its parts. -/
theorem mem_descendants {s x : SignalId} : x ∈ t.descendants s ↔ t.PartOf x s := by
  have hstep : t.PartOf x s ↔ ∃ c, t.Within x c ∧ t.parent? c = some s :=
    Relation.TransGen.tail'_iff
  rw [ht.isForest.mem_iff (ht.depthFirst_descendants s), hstep]
  refine exists_congr fun c => ?_
  rw [ht.mem_children, and_comm]
  rfl

end Forest

end SignalTable

end Cyclewise
