import Cyclewise.Net.Tables
import Cyclewise.Proofs.Net.Partition
import Cyclewise.Proofs.OrderedMap

/-!
# Numbering nets one signal after the other

The signals are put into nets by the roots that are found for them.  After each signal the nets are
the classes of the roots so far (`Numbering.Numbered`), because a further signal is either a further
member of the class of its root or the only one of a new class that comes last
(`Partition.members_concat`).
-/

namespace Cyclewise

/-- A further item is left out if it is there before. -/
theorem eraseDups_concat {α : Type} [DecidableEq α] (xs : List α) (x : α) :
    (xs ++ [x]).eraseDups = if x ∈ xs then xs.eraseDups else xs.eraseDups ++ [x] := by
  have hone : [x].eraseDups = [x] := by
    rw [List.eraseDups_cons, List.filter_nil, List.eraseDups_nil]
  rw [List.eraseDups_append]
  by_cases hx : x ∈ xs
  · simp [hx, List.removeAll]
  · simp [hx, List.removeAll, hone]

namespace Partition

/-- The signals with a root, among the first ones. -/
def withRoot (roots : List Nat) (r : Nat) : List SignalId :=
  (roots.zipIdx.filter fun (r', _) => r' = r).map fun (_, i) => SignalId.mk i

variable {roots : List Nat} {r : Nat}

theorem withRoot_concat (roots : List Nat) (r r' : Nat) :
    withRoot (roots ++ [r]) r' =
      if r = r' then withRoot roots r' ++ [⟨roots.length⟩] else withRoot roots r' := by
  unfold withRoot
  rw [List.zipIdx_append, List.filter_append, List.map_append]
  by_cases h : r = r' <;> simp [h]

theorem withRoot_of_not_mem (h : r ∉ roots) : withRoot roots r = [] := by
  unfold withRoot
  rw [List.map_eq_nil_iff, List.filter_eq_nil_iff]
  rintro ⟨r', i⟩ hmem hr
  obtain rfl := of_decide_eq_true hr
  exact h (List.mem_of_getElem? (List.mem_zipIdx_iff_getElem?.1 hmem))

theorem idxOf_concat {r' : Nat} (hr' : r' ∈ roots) :
    (roots ++ [r]).eraseDups.idxOf r' = roots.eraseDups.idxOf r' := by
  rw [eraseDups_concat]
  split
  · rfl
  · exact List.idxOf_append_of_mem (List.mem_eraseDups.2 hr')

theorem netOf_concat (roots : List Nat) (r : Nat) :
    (ofRoots (roots ++ [r])).netOf =
      (ofRoots roots).netOf.push ⟨(roots ++ [r]).eraseDups.idxOf r⟩ := by
  have hearlier : (roots.map fun r' => NetId.mk ((roots ++ [r]).eraseDups.idxOf r')) =
      roots.map fun r' => NetId.mk (roots.eraseDups.idxOf r') :=
    List.map_congr_left fun r' hr' => by rw [idxOf_concat hr']
  unfold ofRoots
  simp only [List.map_append, List.map_cons, List.map_nil, hearlier, List.push_toArray]

/-- The next signal is a further member of the class of its root. -/
theorem members_concat (roots : List Nat) (r : Nat) :
    (ofRoots (roots ++ [r])).members =
      let k := (roots ++ [r]).eraseDups.idxOf r
      let members := (ofRoots roots).members
      (if members.size ≤ k then members.push [] else members).modify k
        (· ++ [⟨roots.length⟩]) := by
  have hmembers : ∀ roots, (ofRoots roots).members =
      (roots.eraseDups.map (withRoot roots)).toArray := fun _ => rfl
  have hmem : r ∈ (roots ++ [r]).eraseDups := List.mem_eraseDups.2 (by simp)
  -- with a place for its class, each class has the members among the earlier signals
  have hpadded : (if (ofRoots roots).members.size ≤ (roots ++ [r]).eraseDups.idxOf r then
        (ofRoots roots).members.push [] else (ofRoots roots).members) =
      ((roots ++ [r]).eraseDups.map (withRoot roots)).toArray := by
    rw [hmembers, eraseDups_concat]
    by_cases hr : r ∈ roots
    · have hlt := List.idxOf_lt_length_of_mem (List.mem_eraseDups.2 hr)
      rw [if_pos hr, if_neg (by simpa using hlt)]
    · have hlast : (roots.eraseDups ++ [r]).idxOf r = roots.eraseDups.length := by
        rw [List.idxOf_append, if_neg (by simpa using hr), List.idxOf_cons_self, Nat.zero_add]
      rw [if_neg hr, hlast, if_pos (by simp), List.map_append, List.push_toArray, List.map_cons,
        withRoot_of_not_mem hr, List.map_nil]
  simp only [hpadded]
  rw [hmembers]
  apply Array.ext_getElem?
  intro j
  rw [Array.getElem?_modify]
  simp only [List.getElem?_toArray, List.getElem?_map]
  cases hj : (roots ++ [r]).eraseDups[j]? with
  | none => simp
  | some r' =>
    obtain ⟨hlt, rfl⟩ := List.getElem?_eq_some_iff.1 hj
    have hsame : (roots ++ [r]).eraseDups.idxOf r = j ↔ r = (roots ++ [r]).eraseDups[j] := by
      constructor
      · rintro rfl
        exact (List.getElem_idxOf hlt).symm
      · intro h
        have hfirst := (nodup_eraseDups (roots ++ [r])).idxOf_getElem j hlt
        rwa [← h] at hfirst
    simp only [hsame, Option.map_some, withRoot_concat roots r]
    split <;> rfl

end Partition

namespace Numbering

/-- The state after the signals with these roots. -/
structure Numbered (sets : DisjointSets) (roots : List Nat) (t : Numbering) : Prop where
  sets : sets.SameRoots t.sets
  find? : ∀ r, t.rootNets.find? r =
    if r ∈ roots then some ⟨roots.eraseDups.idxOf r⟩ else none
  size : t.rootNets.size = roots.eraseDups.length
  partition : t.partition = Partition.ofRoots roots

variable {sets : DisjointSets}

theorem numbered_start (hsets : sets.Sound) : Numbered sets [] (start sets) where
  sets := .refl hsets
  find? _ := (if_neg (List.not_mem_nil)).symm
  size := rfl
  partition := rfl

section

variable {roots : List Nat} {t : Numbering} (ht : Numbered sets roots t)

include ht

theorem Numbered.mem_keys {r : Nat} : r ∈ t.rootNets.keys ↔ r ∈ roots := by
  rw [OrderedMap.mem_keys_iff_isSome_find?, ht.find?]
  split <;> simp [*]

/-- The net of the next signal is the place of its root among the roots. -/
theorem Numbered.net_eq (r : Nat) :
    t.rootNets.findD r ⟨t.rootNets.size⟩ = ⟨(roots ++ [r]).eraseDups.idxOf r⟩ := by
  unfold OrderedMap.findD
  rw [ht.find?, ht.size]
  by_cases hr : r ∈ roots
  · rw [if_pos hr, Partition.idxOf_concat hr, Option.getD_some]
  · rw [if_neg hr, Option.getD_none, eraseDups_concat, if_neg hr, List.idxOf_append,
      if_neg (by simpa using hr), List.idxOf_cons_self, Nat.zero_add]

theorem Numbered.find?_insert (r r' : Nat) :
    (t.rootNets.insert r ⟨(roots ++ [r]).eraseDups.idxOf r⟩).find? r' =
      if r' ∈ roots ++ [r] then some ⟨(roots ++ [r]).eraseDups.idxOf r'⟩ else none := by
  rw [OrderedMap.find?_insert, ht.find?]
  by_cases hr' : r' = r
  · rw [if_pos hr', if_pos (by simp [hr']), hr']
  · rw [if_neg hr']
    by_cases hmem : r' ∈ roots
    · rw [if_pos hmem, if_pos (by simp [hmem]), Partition.idxOf_concat hmem]
    · rw [if_neg hmem, if_neg (by simp [hmem, hr'])]

theorem Numbered.size_insert (r : Nat) (net : NetId) :
    (t.rootNets.insert r net).size = (roots ++ [r]).eraseDups.length := by
  have hsize : ∀ m : OrderedMap Nat NetId, m.size = m.keys.length := fun m =>
    (List.length_map ..).symm
  rw [hsize, OrderedMap.keys_insert, eraseDups_concat]
  simp only [ht.mem_keys]
  split
  · rw [← hsize, ht.size]
  · rw [List.length_append, List.length_append, ← hsize, ht.size]

/-- The next signal is numbered by its root. -/
theorem Numbered.step (hlt : roots.length < sets.size) :
    Numbered sets (roots ++ [sets.root roots.length]) (t.number roots.length) := by
  have hlt' : roots.length < t.sets.size := ht.sets.size_eq ▸ hlt
  obtain ⟨hfound, hfind⟩ := ht.sets.sound.sameRoots_find hlt'
  have hroot : (t.sets.find roots.length).1 = sets.root roots.length :=
    hfound.trans (ht.sets.root_eq _)
  generalize sets.root roots.length = r at hroot ⊢
  have hnumber : t.number roots.length =
      { sets := (t.sets.find roots.length).2
        rootNets := t.rootNets.insert r ⟨(roots ++ [r]).eraseDups.idxOf r⟩
        netOf := t.netOf.push ⟨(roots ++ [r]).eraseDups.idxOf r⟩
        members := (if t.members.size ≤ (roots ++ [r]).eraseDups.idxOf r then t.members.push []
          else t.members).modify ((roots ++ [r]).eraseDups.idxOf r) (· ++ [⟨roots.length⟩]) } := by
    unfold number
    simp only [hroot, ht.net_eq r]
  rw [hnumber]
  refine ⟨ht.sets.trans hfind, ht.find?_insert r, ht.size_insert r _, ?_⟩
  have hnetOf : t.netOf = (Partition.ofRoots roots).netOf :=
    congrArg Partition.netOf ht.partition
  have hmembers : t.members = (Partition.ofRoots roots).members :=
    congrArg Partition.members ht.partition
  show (⟨t.netOf.push _, _⟩ : Partition) = _
  rw [hnetOf, hmembers, ← Partition.netOf_concat, ← Partition.members_concat]

end

theorem numbered_range (hsets : sets.Sound) {n : Nat} (hn : n ≤ sets.size) :
    Numbered sets ((List.range n).map sets.root) ((List.range n).foldl number (start sets)) := by
  induction n with
  | zero => exact numbered_start hsets
  | succ n ih =>
    have hn' := (ih (by omega)).step (by rw [List.length_map, List.length_range]; omega)
    rw [List.length_map, List.length_range] at hn'
    rw [List.range_succ, List.foldl_append, List.map_append]
    exact hn'

/-- Numbering the signals gives the classes of their roots. -/
theorem partition_ofConnections {n : Nat} {connections : List Connection}
    (hin : ∀ c ∈ connections, c.a.index < n ∧ c.b.index < n) :
    (ofConnections n connections).partition = Partition.ofConnections n connections := by
  obtain ⟨hsound, hsize, -⟩ := Partition.merge_spec hin
  exact (numbered_range hsound (Nat.le_of_eq hsize.symm)).partition

end Numbering

end Cyclewise
