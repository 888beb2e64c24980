import Mathlib.Data.List.Range
import Cyclewise.Hierarchy.Edit

/-!
# Hierarchies that edits lead to

`Hierarchy.Built` collects the hierarchies that arise from a fresh one by successful edits and by
asking for the aggregate.  A successful edit either changes nothing or ends in `touch`, which
empties the cache; so a filled cache always holds the flattened tree (`Built.flattened_eq`), whose
blocks are the live ones in ascending order.
-/

namespace Cyclewise

namespace Hierarchy

variable {μ : Type}

/-- The hierarchies that successful edits lead to. -/
inductive Built : Hierarchy μ → Prop where
  | new (top : String) : Built (new top)
  | addComponent {h h' c} (hh : Built h) {parent name}
      (he : h.addComponent parent name = .ok (c, h')) : Built h'
  | registerBlock {h h' b} (hh : Built h) {owner block}
      (he : h.registerBlock owner block = .ok (b, h')) : Built h'
  | removeComponent {h h'} (hh : Built h) {c} (he : h.removeComponent c = .ok h') : Built h'
  | addConstraints {h h'} (hh : Built h) {owner pairs}
      (he : h.addConstraints owner pairs = .ok h') : Built h'
  | aggregate {h} (hh : Built h) : Built h.aggregate.2

variable {h h' : Hierarchy μ}

/-! ## What successful edits do -/

/-- One edit later: the new hierarchy comes from `touch`, which counts the edit. -/
def Touched (h h' : Hierarchy μ) : Prop := ∃ k : Hierarchy μ, h' = k.touch ∧ k.revision = h.revision

theorem Touched.revision (ht : h.Touched h') : h'.revision = h.revision + 1 := by
  obtain ⟨k, rfl, hk⟩ := ht
  rw [← hk]
  rfl

theorem Touched.flattened_eq (ht : h.Touched h') : h'.flattened = h'.flatten := by
  obtain ⟨k, rfl, -⟩ := ht
  rfl

theorem addComponent_eq_ok {parent c : ComponentId} {name : String}
    (he : h.addComponent parent name = .ok (c, h')) : h.Touched h' := by
  simp only [addComponent, bind, Except.bind] at he
  split at he
  · cases he
  · split at he
    · cases he
    · obtain ⟨-, rfl⟩ := Prod.mk.inj (Except.ok.inj he)
      exact ⟨_, rfl, rfl⟩

theorem registerBlock_eq_ok {owner : ComponentId} {block : UpdateBlock μ} {b : BlockId}
    (he : h.registerBlock owner block = .ok (b, h')) : h.Touched h' := by
  simp only [registerBlock, bind, Except.bind] at he
  split at he
  · cases he
  · split at he
    · cases he
    · obtain ⟨-, rfl⟩ := Prod.mk.inj (Except.ok.inj he)
      exact ⟨_, rfl, rfl⟩

theorem removeComponent_eq_ok {c : ComponentId} (he : h.removeComponent c = .ok h') :
    h.Touched h' := by
  simp only [removeComponent, bind, Except.bind] at he
  split at he
  · cases he
  · split at he
    · cases he
    · exact ⟨_, (Except.ok.inj he).symm, rfl⟩

/-- Accepted constraints are those that were checked, after those accepted before. -/
theorem checkConstraints_eq_ok {owner : ComponentId} {accepted accepted' pairs : List Constraint}
    (hc : h.checkConstraints owner accepted pairs = .ok accepted') :
    accepted' = accepted ++ pairs := by
  induction pairs generalizing accepted with
  | nil => exact (Except.ok.inj hc).symm.trans (List.append_nil _).symm
  | cons k rest ih =>
    simp only [checkConstraints, bind, Except.bind] at hc
    split at hc
    · cases hc
    · split at hc
      · cases hc
      · rw [ih hc, List.append_assoc, List.singleton_append]

/-- Only an empty list of constraints leaves the hierarchy as it is. -/
theorem addConstraints_eq_ok {owner : ComponentId} {pairs : List Constraint}
    (he : h.addConstraints owner pairs = .ok h') :
    (pairs = [] ∧ h' = h) ∨ (pairs ≠ [] ∧ h.Touched h') := by
  simp only [addConstraints, bind, Except.bind] at he
  split at he
  · cases he
  · split at he
    · cases he
    · next accepted hc =>
      rw [checkConstraints_eq_ok hc, List.nil_append] at he
      split at he
      · next hempty => exact .inl ⟨List.isEmpty_iff.1 hempty, (Except.ok.inj he).symm⟩
      · next hempty =>
        exact .inr ⟨fun hnil => hempty (List.isEmpty_iff.2 hnil), _, (Except.ok.inj he).symm, rfl⟩

/-! ## The cache -/

/-- A filled cache holds the flattened tree. -/
theorem Built.flattened_eq (hh : h.Built) : h.flattened = h.flatten := by
  induction hh with
  | new => rfl
  | addComponent _ he => exact (addComponent_eq_ok he).flattened_eq
  | registerBlock _ he => exact (registerBlock_eq_ok he).flattened_eq
  | removeComponent _ he => exact (removeComponent_eq_ok he).flattened_eq
  | addConstraints _ he ih =>
    rcases addConstraints_eq_ok he with ⟨-, rfl⟩ | ⟨-, ht⟩
    · exact ih
    · exact ht.flattened_eq
  | @aggregate h _ ih => exact ih

/-! ## Live blocks -/

theorem mem_liveOwners {b : BlockId} {c : ComponentId} :
    (b, c) ∈ h.liveOwners ↔ h.ownerOf? b = some c := by
  unfold liveOwners ownerOf? entry?
  rw [List.mem_filterMap, Option.map_eq_some_iff]
  simp only [Option.filter_eq_some_iff]
  constructor
  · rintro ⟨⟨e, i⟩, hmem, he⟩
    rw [List.mem_zipIdx_iff_getElem?, Array.getElem?_toList] at hmem
    split at he
    · next halive =>
      obtain ⟨rfl, rfl⟩ := Prod.mk.inj (Option.some.inj he)
      exact ⟨e, ⟨hmem, halive⟩, rfl⟩
    · cases he
  · rintro ⟨e, ⟨hmem, halive⟩, rfl⟩
    refine ⟨(e, b.index), ?_, by simp [halive]⟩
    rwa [List.mem_zipIdx_iff_getElem?, Array.getElem?_toList]

theorem mem_blocks_flatten {b : BlockId} : b ∈ h.flatten.blocks ↔ (h.block? b).isSome := by
  unfold Aggregate.blocks flatten block?
  rw [List.mem_map]
  constructor
  · rintro ⟨⟨b, c⟩, hmem, rfl⟩
    obtain ⟨e, he, -⟩ := Option.map_eq_some_iff.1 (mem_liveOwners.1 hmem)
    simp [he]
  · intro hb
    rw [Option.isSome_map] at hb
    obtain ⟨e, he⟩ := Option.isSome_iff_exists.1 hb
    exact ⟨(b, e.owner), mem_liveOwners.2 (Option.map_eq_some_iff.2 ⟨e, he, rfl⟩), rfl⟩

theorem mem_of_block? {b : BlockId} {block : UpdateBlock μ} (hb : h.block? b = some block) :
    block ∈ h.blocks.map BlockEntry.block := by
  unfold block? entry? at hb
  obtain ⟨e, he, rfl⟩ := Option.map_eq_some_iff.1 hb
  obtain ⟨hmem, -⟩ := Option.filter_eq_some_iff.1 he
  exact Array.mem_map_of_mem (Array.mem_of_getElem? hmem)

/-- The live blocks are listed by ascending number. -/
theorem pairwise_blocks_flatten (h : Hierarchy μ) :
    h.flatten.blocks.Pairwise (·.index < ·.index) := by
  unfold Aggregate.blocks flatten liveOwners
  rw [List.pairwise_map, List.pairwise_filterMap]
  have hindex : (h.blocks.toList.zipIdx).Pairwise (·.2 < ·.2) := by
    rw [← List.pairwise_map, List.zipIdx_map_snd]
    exact List.pairwise_lt_range'
  refine hindex.imp fun {x y} hxy a ha b hb => ?_
  obtain ⟨e, i⟩ := x
  obtain ⟨e', j⟩ := y
  simp only [Option.ite_none_right_eq_some, Option.some.injEq] at ha hb
  obtain ⟨-, rfl⟩ := ha
  obtain ⟨-, rfl⟩ := hb
  exact hxy

end Hierarchy

end Cyclewise
