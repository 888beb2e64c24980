import Mathlib.Data.List.Nodup
import Cyclewise.Proofs.Net.DisjointSets
import Cyclewise.Net.Partition

/-!
# Nets are classes of connected signals

Every signal below `n` is in one net of `Partition.ofConnections n connections`, two signals are in
one net exactly when connections join them (`net?_eq_iff_connected`), and the members of a net are
the signals in it (`mem_membersOf`).
-/

namespace Cyclewise

/-- Zero or more connections, each followed either way, lead from one signal to the other. -/
def Connected (connections : List Connection) : SignalId → SignalId → Prop :=
  Relation.EqvGen fun s t => ⟨s, t⟩ ∈ connections

/-- A connected signal is the same one or is named by a connection. -/
theorem Connected.eq_or_lt {connections : List Connection} {size : Nat}
    (hin : ∀ c ∈ connections, c.a.index < size ∧ c.b.index < size) {s t : SignalId}
    (h : Connected connections s t) : s = t ∨ (s.index < size ∧ t.index < size) := by
  induction h with
  | rel s t hc => exact .inr (hin _ hc)
  | refl => exact .inl rfl
  | symm s t _ ih =>
    rcases ih with rfl | ⟨hs, ht⟩
    · exact .inl rfl
    · exact .inr ⟨ht, hs⟩
  | trans s t u _ _ ih ih' =>
    rcases ih with rfl | ⟨hs, ht⟩
    · exact ih'
    · rcases ih' with rfl | ⟨-, hu⟩
      · exact .inr ⟨hs, ht⟩
      · exact .inr ⟨hs, hu⟩

/-! ## Lists without repetition -/

section

variable {α : Type} [BEq α]

/-- The recursion of `eraseDups`: behind an item, all that repeats it is left out. -/
theorem eraseDups_induction {P : List α → Prop} (nil : P [])
    (cons : ∀ a rest, P (rest.filter fun b => !b == a) → P (a :: rest)) (xs : List α) : P xs := by
  induction h : xs.length using Nat.strong_induction_on generalizing xs with
  | _ n ih =>
    cases xs with
    | nil => exact nil
    | cons a rest =>
      have hlen := List.length_filter_le (fun b => !b == a) rest
      rw [List.length_cons] at h
      exact cons a rest (ih _ (by omega) _ rfl)

theorem nodup_eraseDups [LawfulBEq α] (xs : List α) : xs.eraseDups.Nodup := by
  induction xs using eraseDups_induction with
  | nil => exact List.nodup_nil
  | cons a rest ih =>
    rw [List.eraseDups_cons, List.nodup_cons]
    exact ⟨by simp, ih⟩

end

namespace Partition

/-! ## Numbering the roots -/

variable {roots : List Nat} {s t : SignalId} {n : NetId}

theorem net?_ofRoots (roots : List Nat) (s : SignalId) :
    (ofRoots roots).net? s = (roots[s.index]?).map fun r => ⟨roots.eraseDups.idxOf r⟩ := by
  simp [ofRoots, net?]

theorem net?_ofRoots_eq_some :
    (ofRoots roots).net? s = some n ↔
      ∃ r, roots[s.index]? = some r ∧ roots.eraseDups[n.index]? = some r := by
  rw [net?_ofRoots, Option.map_eq_some_iff]
  constructor
  · rintro ⟨r, hr, rfl⟩
    exact ⟨r, hr, List.getElem?_idxOf (List.mem_eraseDups.2 (List.mem_of_getElem? hr))⟩
  · rintro ⟨r, hr, hn⟩
    obtain ⟨hlt, rfl⟩ := List.getElem?_eq_some_iff.1 hn
    exact ⟨_, hr, by rw [(nodup_eraseDups roots).idxOf_getElem]⟩

theorem mem_membersOf_ofRoots :
    s ∈ (ofRoots roots).membersOf n ↔ (ofRoots roots).net? s = some n := by
  rw [net?_ofRoots_eq_some]
  unfold membersOf ofRoots
  simp only [Array.getD_eq_getD_getElem?, List.getElem?_toArray, List.getElem?_map]
  cases h : roots.eraseDups[n.index]? with
  | none => simp
  | some r =>
    simp only [Option.map_some, Option.getD_some, Option.some.injEq, List.mem_map,
      List.mem_filter, decide_eq_true_eq, Prod.exists]
    constructor
    · rintro ⟨r', i, ⟨hmem, rfl⟩, rfl⟩
      exact ⟨_, List.mem_zipIdx_iff_getElem?.1 hmem, rfl⟩
    · rintro ⟨r', hs, rfl⟩
      exact ⟨r, s.index, ⟨List.mem_zipIdx_iff_getElem?.2 hs, rfl⟩, rfl⟩

theorem index_lt_size_ofRoots (h : (ofRoots roots).net? s = some n) :
    n.index < (ofRoots roots).size := by
  obtain ⟨r, -, hn⟩ := net?_ofRoots_eq_some.1 h
  obtain ⟨hlt, -⟩ := List.getElem?_eq_some_iff.1 hn
  simpa [ofRoots, size] using hlt

theorem net?_ofRoots_eq_iff {r r' : Nat} (hs : roots[s.index]? = some r)
    (ht : roots[t.index]? = some r') :
    (ofRoots roots).net? s = (ofRoots roots).net? t ↔ r = r' := by
  rw [net?_ofRoots, net?_ofRoots, hs, ht, Option.map_some, Option.map_some, Option.some.injEq,
    NetId.mk.injEq]
  exact List.idxOf_inj (List.mem_eraseDups.2 (List.mem_of_getElem? hs))

theorem mem_ids {p : Partition} : n ∈ p.ids ↔ n.index < p.size := by
  unfold ids
  rw [List.mem_map]
  constructor
  · rintro ⟨i, hi, rfl⟩
    exact List.mem_range.1 hi
  · intro h
    exact ⟨n.index, List.mem_range.2 h, rfl⟩

/-! ## Connected signals -/

section

variable {size : Nat} {connections : List Connection}
  (hin : ∀ c ∈ connections, c.a.index < size ∧ c.b.index < size)

include hin

/-- Merging ends in sound sets of all signals, in which signals have one root exactly when
connections join them. -/
theorem merge_spec : (merge size connections).Sound ∧ (merge size connections).size = size ∧
    ∀ s t : SignalId,
    (merge size connections).root s.index = (merge size connections).root t.index ↔
      Connected connections s t := by
  have hmerge : merge size connections =
      (connections.map fun c => (c.a.index, c.b.index)).foldl (fun d p => (d.union p.1 p.2).2)
        (DisjointSets.singletons size) := by
    rw [merge, List.foldl_map]
  have hpairs : ∀ p ∈ connections.map fun c => (c.a.index, c.b.index),
      p.1 < (DisjointSets.singletons size).size ∧ p.2 < (DisjointSets.singletons size).size := by
    intro p hp
    obtain ⟨c, hc, rfl⟩ := List.mem_map.1 hp
    simpa [DisjointSets.singletons, DisjointSets.size] using hin c hc
  obtain ⟨hsound, hsize, hroot⟩ := (DisjointSets.sound_singletons size).root_foldl_union hpairs
  rw [hmerge]
  refine ⟨hsound, hsize.trans Array.size_range, fun s t => ?_⟩
  rw [hroot]
  constructor
  · refine DisjointSets.eqvGen_map (f := SignalId.mk) fun i j h => ?_
    rcases h with h | h
    · rw [DisjointSets.root_singletons, DisjointSets.root_singletons] at h
      exact h ▸ .refl _
    · obtain ⟨c, hc, hij⟩ := List.mem_map.1 h
      obtain ⟨rfl, rfl⟩ := Prod.mk.inj hij
      exact .rel _ _ hc
  · refine DisjointSets.eqvGen_map (f := SignalId.index) fun s t h => .rel _ _ (.inr ?_)
    exact List.mem_map.2 ⟨⟨s, t⟩, h, rfl⟩

/-- Two signals are in one net exactly when connections join them. -/
theorem net?_eq_iff_connected {s t : SignalId} (hs : s.index < size) (ht : t.index < size) :
    (ofConnections size connections).net? s = (ofConnections size connections).net? t ↔
      Connected connections s t := by
  rw [← (merge_spec hin).2.2]
  exact net?_ofRoots_eq_iff (by simp [hs]) (by simp [ht])

end

variable {size : Nat} {connections : List Connection}

theorem exists_net? (hs : s.index < size) :
    ∃ n, (ofConnections size connections).net? s = some n := by
  have h : ((List.range size).map (merge size connections).root)[s.index]? =
      some ((merge size connections).root s.index) := by
    simp [hs]
  exact ⟨_, by rw [ofConnections, net?_ofRoots, h, Option.map_some]⟩

theorem lt_of_net? (h : (ofConnections size connections).net? s = some n) : s.index < size := by
  obtain ⟨r, hs, -⟩ := net?_ofRoots_eq_some.1 h
  obtain ⟨hlt, -⟩ := List.getElem?_eq_some_iff.1 hs
  simpa using hlt

/-- The members of a net are the signals in it. -/
theorem mem_membersOf :
    s ∈ (ofConnections size connections).membersOf n ↔
      (ofConnections size connections).net? s = some n :=
  mem_membersOf_ofRoots

end Partition

end Cyclewise
