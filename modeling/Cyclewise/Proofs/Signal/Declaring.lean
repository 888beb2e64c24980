import Cyclewise.Proofs.Signal.Index
import Cyclewise.Signal.Script

/-!
# Declaring in place

A declaration in place is refused at one of its checks, before anything is changed, so that the
table is what the function of the table says it is (`run_script`).  Whatever was declared and
refused before, the definitions, the index of the paths and the lists of parts are in step, and the
loops that follow wholes upwards and parts downwards come to an end and describe one relation
(`WellFormed`).
-/

namespace Cyclewise

namespace SignalTable

variable {t : SignalTable}

/-! ## Scripts and functions -/

/-- How an edit ends in place: with the new table, or refused on the old one. -/
def settled (t : SignalTable) :
    Except SignalError (SignalId × SignalTable) →
      EStateM.Result SignalError SignalTable SignalId
  | .ok (s, t') => .ok s t'
  | .error e => .error e t

theorem run_insert (t : SignalTable) (d : SignalDef) :
    (Script.insert d).run t = t.settled (t.insert d) := by
  unfold Script.insert insert
  rw [EStateM.run_bind, EStateM.run_get]
  by_cases hpath : t.byPath.contains d.path = true
  · simp only [hpath, if_true]
    rfl
  by_cases hfull : capacity ≤ t.size
  · simp only [hpath, hfull, if_true]
    rfl
  simp only [hpath, hfull, if_false]
  cases d.parent <;> rfl

/-- A script refuses what the function refuses, and leaves the table as it was. -/
theorem run_script (t : SignalTable) (d : Declaration) : d.script.run t = t.settled (d.edit t) := by
  cases d with
  | declare path kind typeName owner => exact run_insert t _
  | declareChild parent suffix typeName =>
    change (Script.declareChild parent suffix typeName).run t =
      t.settled (t.declareChild parent suffix typeName)
    unfold Script.declareChild declareChild
    rw [EStateM.run_bind, EStateM.run_get]
    cases hwhole : t.get? parent with
    | none => simp only [hwhole]; rfl
    | some whole => simpa only [hwhole] using run_insert t _

/-! ## One declaration -/

/-- The signal that a declaration asks for, unless it names an undeclared whole. -/
def Declaration.signal? (t : SignalTable) : Declaration → Option SignalDef
  | declare path kind typeName owner => some { path, kind, typeName, owner, parent := none }
  | declareChild parent suffix typeName =>
    (t.get? parent).map fun whole =>
      { path := whole.path ++ suffix, kind := whole.kind, typeName, owner := whole.owner,
        parent := some parent }

/-- How a declaration ends. -/
inductive Effect (t : SignalTable) (d : Declaration) :
    Except SignalError SignalId × SignalTable → Prop where
  /-- There is no such whole, or the path is taken, or there is no number left.  The table stays as
  it was. -/
  | refused (e) (h : ∀ sd, d.signal? t = some sd → t.lookup? sd.path ≠ none ∨ capacity ≤ t.size) :
      Effect t d (.error e, t)
  /-- The signal is declared under the next number and everything else stays as it was. -/
  | declared {sd t'} (hsignal : d.signal? t = some sd) (hfree : t.lookup? sd.path = none)
      (hroom : t.size < capacity) (hsize : t'.size = t.size + 1)
      (hget : ∀ a, t'.get? a = if a = ⟨t.size⟩ then some sd else t.get? a) :
      Effect t d (.ok ⟨t.size⟩, t')

/-- The edit is that of the signal that the declaration asks for. -/
theorem edit_of_signal? {d : Declaration} {sd : SignalDef} (h : d.signal? t = some sd) :
    d.edit t = t.insert sd := by
  cases d with
  | declare path kind typeName owner => exact Option.some.inj h ▸ rfl
  | declareChild parent suffix typeName =>
    obtain ⟨whole, hwhole, rfl⟩ := Option.map_eq_some_iff.1 h
    unfold Declaration.edit declareChild
    simp only [hwhole]

theorem edit_of_signal?_eq_none {d : Declaration} (h : d.signal? t = none) :
    ∃ e, d.edit t = .error e := by
  cases d with
  | declare path kind typeName owner => cases h
  | declareChild parent suffix typeName =>
    refine ⟨.unknownSignal parent, ?_⟩
    unfold Declaration.edit declareChild
    simp only [Option.map_eq_none_iff.1 h]

theorem lookup?_eq_none_iff {path : String} : t.lookup? path = none ↔ path ∉ t.byPath.keys := by
  rw [OrderedMap.mem_keys_iff_isSome_find?, Option.not_isSome_iff_eq_none]
  rfl

/-- A signal is refused if its path is taken or there is no number left. -/
theorem insert_eq_error {sd : SignalDef} {e : SignalError} (h : t.insert sd = .error e) :
    t.lookup? sd.path ≠ none ∨ capacity ≤ t.size := by
  unfold insert at h
  split at h
  · next hpath =>
    refine .inl fun hnone => lookup?_eq_none_iff.1 hnone ?_
    simpa [OrderedMap.contains] using hpath
  · split at h
    · next hfull => exact .inr hfull
    · cases h

theorem lt_capacity_of_insert {t' : SignalTable} {sd : SignalDef} {s : SignalId}
    (h : t.insert sd = .ok (s, t')) : t.size < capacity := by
  unfold insert at h
  split at h
  · cases h
  · split at h
    · cases h
    · next hroom => exact Nat.lt_of_not_le hroom

theorem effect_perform (t : SignalTable) (d : Declaration) : t.Effect d (t.perform d) := by
  unfold perform
  rw [run_script]
  cases hsignal : d.signal? t with
  | none =>
    obtain ⟨e, he⟩ := edit_of_signal?_eq_none hsignal
    rw [he]
    refine .refused e fun sd hsd => ?_
    rw [hsignal] at hsd
    cases hsd
  | some sd =>
    rw [edit_of_signal? hsignal]
    cases hinsert : t.insert sd with
    | error e =>
      refine .refused e fun sd' hsd' => ?_
      obtain rfl := Option.some.inj (hsignal.symm.trans hsd')
      exact insert_eq_error hinsert
    | ok result =>
      obtain ⟨s, t'⟩ := result
      obtain ⟨rfl, -, -⟩ := insert_eq_ok hinsert
      refine .declared hsignal (lookup?_eq_none_iff.2 (byPath_insert hinsert).1)
        (lt_capacity_of_insert hinsert) (size_insert hinsert) fun a => ?_
      rw [get?_insert hinsert]
      refine if_congr ⟨fun h => ?_, fun h => ?_⟩ rfl rfl
      · rw [← h]
      · rw [h]

/-! ## Sequences of declarations -/

theorem Built.edit {t' : SignalTable} {d : Declaration} {s : SignalId} (ht : t.Built)
    (h : d.edit t = .ok (s, t')) : t'.Built := by
  cases d with
  | declare path kind typeName owner => exact ht.declare h
  | declareChild parent suffix typeName => exact ht.declareChild h

theorem Built.perform (ht : t.Built) (d : Declaration) : (t.perform d).2.Built := by
  unfold SignalTable.perform
  rw [run_script]
  cases h : d.edit t with
  | error e => exact ht
  | ok result => exact ht.edit h

theorem built_after (ds : List Declaration) : (after ds).Built := by
  have hfold : ∀ (ds : List Declaration) {t : SignalTable}, t.Built →
      (ds.foldl (fun t d => (t.perform d).2) t).Built := by
    intro ds
    induction ds with
    | nil => exact id
    | cons d ds ih => exact fun ht => ih (ht.perform d)
  exact hfold ds .empty

/-- The definitions, the index and the lists of parts say the same, and so do the loops over
them. -/
structure WellFormed (t : SignalTable) : Prop where
  path_unique : ∀ {a b da db}, t.get? a = some da → t.get? b = some db → da.path = db.path → a = b
  lookup_iff : ∀ {path a}, t.lookup? path = some a ↔ ∃ d, t.get? a = some d ∧ d.path = path
  index_in_step : t.byPath.entries = t.toList.map fun (a, d) => (d.path, a)
  parts_in_step : t.parts.size = t.defs.size
  parent_lt : ∀ {s p}, t.parent? s = some p → p.index < s.index
  mem_children_iff : ∀ {s p}, s ∈ t.children p ↔ ∃ d, t.get? s = some d ∧ d.parent = some p
  children_ascend : ∀ p, (t.children p).Pairwise (·.index < ·.index)
  /-- The loop upwards ends, and lists the ancestors. -/
  upwards : ∀ s, ParentLoop t.parent? (t.parent? s) (t.ancestors s)
  /-- The loop downwards ends, and lists the descendants. -/
  downwards : ∀ s, StackLoop t.children (t.children s) (t.descendants s)
  mem_descendants_iff : ∀ {a d}, d ∈ t.descendants a ↔ a ∈ t.ancestors d
  /-- The descendants are what the pre-order has behind its root. -/
  preorder : ∀ a, DepthFirst t.children [a] (a :: t.descendants a)
  nodup : ∀ a, (a :: t.descendants a).Nodup

theorem Built.wellFormed (ht : t.Built) : t.WellFormed where
  path_unique ha hb hpath := by
    have hlookup := ht.lookup?_eq_some_iff.2 ⟨_, ha, rfl⟩
    rw [hpath, ht.lookup?_eq_some_iff.2 ⟨_, hb, rfl⟩] at hlookup
    exact (Option.some.inj hlookup).symm
  lookup_iff := ht.lookup?_eq_some_iff
  index_in_step := ht.entries_byPath
  parts_in_step := ht.forest.parts_size
  parent_lt := ht.forest.parent_lt
  mem_children_iff := ht.forest.mem_children.trans Option.bind_eq_some_iff
  children_ascend := ht.forest.children_ascend
  upwards := ht.forest.parentLoop_ancestors
  downwards s := stackLoop_iff_depthFirst.2 (ht.forest.depthFirst_descendants s)
  mem_descendants_iff := ht.forest.mem_descendants.trans ht.forest.mem_ancestors.symm
  preorder a := by
    have hcons := DepthFirst.cons (ht.forest.depthFirst_descendants a) .nil
    rwa [List.append_nil] at hcons
  nodup a := by
    refine List.nodup_cons.2 ⟨fun ha => ?_, ht.forest.isForest.nodup
      (ht.forest.depthFirst_descendants a) (ht.forest.isForest.children_apart a)⟩
    -- a part has a greater number than its whole
    obtain ⟨p, hp, hwithin⟩ := Relation.TransGen.head'_iff.1 (ht.forest.mem_descendants.1 ha)
    have hle := ht.forest.index_le hwithin
    have hlt := ht.forest.parent_lt hp
    omega

/-- Every sequence of declarations leads to a table that is well-formed, whichever of them were
refused, and the next one is refused with no effect or adds the signal that it asks for. -/
theorem wellFormed_after (ds : List Declaration) :
    (after ds).WellFormed ∧ ∀ d, (after ds).Effect d ((after ds).perform d) :=
  ⟨(built_after ds).wellFormed, effect_perform (after ds)⟩

end SignalTable

end Cyclewise
