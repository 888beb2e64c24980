import Mathlib.Data.List.Perm.Subperm
import Mathlib.Data.List.Nodup
import Cyclewise.Graph.Level
import Cyclewise.Proofs.Arrays
import Cyclewise.Proofs.Graph.Reach

/-!
# Levels grow along edges

The peeling is followed with the list `done` of the nodes taken so far and the list `rest` of the
successors of the last one that are still to be released.  `Peeling.Inv` says that the counters hold
the edges from nodes not taken, and that the level of a taken node is below those of its successors.
When all nodes are taken this holds for every edge (`level_lt_of_levels`).
-/

namespace Cyclewise

namespace DiGraph

theorem edge_iff {g : DiGraph} {u v : Nat} :
    g.Edge u v ↔ ∃ vs, g.successors[u]? = some vs ∧ v ∈ vs := by
  unfold Edge succ
  rw [Array.getD_eq_getD_getElem?]
  cases g.successors[u]? with
  | none => simp
  | some vs => simp

theorem closed_iff {g : DiGraph} : g.Closed ↔ ∀ u v, g.Edge u v → v < g.size := by
  constructor
  · intro h u v huv
    obtain ⟨vs, hvs, hv⟩ := edge_iff.1 huv
    exact h vs (Array.mem_of_getElem? hvs) v hv
  · intro h vs hvs v hv
    obtain ⟨u, hu⟩ := Array.getElem?_of_mem hvs
    exact h u v (edge_iff.2 ⟨vs, hu, hv⟩)

/-! ## Counting edges -/

/-- The number of edges into `v` from nodes that are not taken. -/
def incoming (g : DiGraph) (done : List Nat) (v : Nat) : Nat :=
  (((List.range g.size).filter fun u => u ∉ done).flatMap g.succ).count v

/-- Taking a node takes its edges out of the count. -/
theorem incoming_take (g : DiGraph) {done : List Nat} {u : Nat} (hu : u < g.size)
    (hdone : u ∉ done) (v : Nat) :
    g.incoming done v = g.incoming (u :: done) v + (g.succ u).count v := by
  have hperm : ((List.range g.size).filter fun w => w ∉ done).Perm
      (u :: (List.range g.size).filter fun w => w ∉ u :: done) := by
    refine (List.perm_ext_iff_of_nodup (List.nodup_range.filter _)
      (List.nodup_cons.2 ⟨by simp, List.nodup_range.filter _⟩)).2 fun w => ?_
    simp only [List.mem_cons, List.mem_filter, List.mem_range, decide_eq_true_eq, not_or]
    by_cases hwu : w = u
    · subst hwu
      simp [hu, hdone]
    · simp [hwu]
  unfold incoming
  rw [(hperm.flatMap_right g.succ).count_eq, List.flatMap_cons, List.count_append, Nat.add_comm]

theorem getD_foldl_count (vs : List Nat) (counts : Array Nat) :
    (vs.foldl (fun counts v => counts.modify v (· + 1)) counts).size = counts.size ∧
      ∀ v < counts.size, (vs.foldl (fun counts v => counts.modify v (· + 1)) counts).getD v 0 =
        counts.getD v 0 + vs.count v := by
  induction vs generalizing counts with
  | nil => exact ⟨rfl, fun v _ => by simp⟩
  | cons w vs ih =>
    obtain ⟨hsize, hget⟩ := ih (counts.modify w (· + 1))
    rw [Array.size_modify] at hsize hget
    refine ⟨hsize, fun v hv => ?_⟩
    rw [List.foldl_cons, hget v hv, getD_modify counts _ fun _ => hv, List.count_cons]
    simp only [beq_iff_eq]
    by_cases hwv : w = v
    · rw [if_pos hwv, if_pos hwv]
      omega
    · rw [if_neg hwv, if_neg hwv]
      omega

/-- `indegrees` counts the edges into each node. -/
theorem indegrees_spec (g : DiGraph) :
    g.indegrees.size = g.size ∧ ∀ v < g.size, g.indegrees.getD v 0 = g.incoming [] v := by
  have hfold : ∀ (vss : List (List Nat)) (counts : Array Nat),
      (vss.foldl (fun counts vs => vs.foldl (fun counts v => counts.modify v (· + 1)) counts)
        counts).size = counts.size ∧
      ∀ v < counts.size,
        (vss.foldl (fun counts vs => vs.foldl (fun counts v => counts.modify v (· + 1)) counts)
          counts).getD v 0 = counts.getD v 0 + vss.flatten.count v := by
    intro vss
    induction vss with
    | nil => exact fun counts => ⟨rfl, fun v _ => by simp⟩
    | cons vs vss ih =>
      intro counts
      obtain ⟨hsize, hget⟩ := getD_foldl_count vs counts
      obtain ⟨hsize', hget'⟩ := ih (vs.foldl (fun counts v => counts.modify v (· + 1)) counts)
      rw [hsize] at hsize' hget'
      refine ⟨hsize', fun v hv => ?_⟩
      rw [List.foldl_cons, hget' v hv, hget v hv, List.flatten_cons, List.count_append]
      omega
  have hrows : g.successors.toList = (List.range g.size).map g.succ := by
    apply List.ext_getElem
    · simp [size]
    · intro i hi hi'
      have hlt : i < g.successors.size := by simpa using hi
      simp [succ, hlt]
  obtain ⟨hsize, hget⟩ := hfold g.successors.toList (Array.replicate g.size 0)
  rw [Array.size_replicate] at hsize hget
  unfold indegrees
  rw [← Array.foldl_toList]
  refine ⟨hsize, fun v hv => ?_⟩
  rw [hget v hv, hrows]
  unfold incoming
  simp [hv, List.flatMap_def]

/-! ## The invariant -/

namespace Peeling

/-- The peeling with the taken nodes `done`, of which the last one has the level `base` and is yet
to release `rest`. -/
structure Inv (g : DiGraph) (done rest : List Nat) (base : Nat) (p : Peeling) : Prop where
  taken : p.taken = done.length
  pending_size : p.pending.size = g.size
  level_size : p.level.size = g.size
  nodup : (done ++ p.ready).Nodup
  lt_size : ∀ v ∈ done ++ p.ready, v < g.size
  pending : ∀ v < g.size, p.pending.getD v 0 = g.incoming done v + rest.count v
  ready : ∀ v < g.size, v ∈ done ++ p.ready ↔ p.pending.getD v 0 = 0
  rising : ∀ u ∈ done, ∀ v, g.Edge u v →
    p.level.getD u 0 < p.level.getD v 0 ∨ (v ∈ rest ∧ p.level.getD u 0 = base)

theorem inv_start (g : DiGraph) : (start g).Inv g [] [] 0 := by
  obtain ⟨hsize, hget⟩ := g.indegrees_spec
  have hready : ∀ v, v ∈ (start g).ready ↔ v < g.size ∧ (start g).pending.getD v 0 = 0 := by
    intro v
    simp [start]
  refine ⟨rfl, hsize, by simp [start], ?_, ?_, ?_, ?_, fun u hu => by cases hu⟩
  · exact List.nodup_range.filter _
  · intro v hv
    exact ((hready v).1 hv).1
  · intro v hv
    exact hget v hv
  · intro v hv
    rw [List.nil_append, hready]
    exact ⟨And.right, fun h => ⟨hv, h⟩⟩

/-! ### Releasing the next successor -/

section

variable {g : DiGraph} {done rest : List Nat} {base w : Nat} {p : Peeling}
  (hp : p.Inv g done (w :: rest) base) (hw : w < g.size)

include hp

theorem Inv.pending_release {v : Nat} (hv : v < g.size) : (p.release base w).pending.getD v 0 =
    p.pending.getD v 0 - if w = v then 1 else 0 := by
  show (p.pending.modify w (· - 1)).getD v 0 = _
  rw [getD_modify p.pending _ fun _ => hp.pending_size.symm ▸ hv]
  by_cases hwv : w = v
  · rw [if_pos hwv, if_pos hwv]
  · rw [if_neg hwv, if_neg hwv]
    omega

include hw

theorem Inv.level_release (v : Nat) : (p.release base w).level.getD v 0 =
    if w = v then max (p.level.getD v 0) (base + 1) else p.level.getD v 0 :=
  getD_modify p.level _ fun e => hp.level_size.symm ▸ e ▸ hw

/-- An edge to the successor is pending, so that its counter can be decreased. -/
theorem Inv.pending_pos : 0 < p.pending.getD w 0 := by
  rw [hp.pending w hw, List.count_cons_self]
  omega

/-- A node with a pending edge is neither taken nor ready. -/
theorem Inv.next_not_mem : w ∉ done ++ p.ready := by
  rw [hp.ready w hw]
  exact Nat.ne_of_gt (hp.pending_pos hw)

/-- The successor becomes ready if that edge is the last one. -/
theorem Inv.ready_release : (p.release base w).ready =
    if p.pending.getD w 0 = 1 then p.ready ++ [w] else p.ready := by
  have hself := hp.pending_release hw
  rw [if_pos rfl] at hself
  have hpending := hp.pending w hw
  rw [List.count_cons_self] at hpending
  have hone : (p.release base w).pending.getD w 0 = 0 ↔ p.pending.getD w 0 = 1 := by omega
  show (if (p.release base w).pending.getD w 0 = 0 then p.ready ++ [w] else p.ready) = _
  rw [if_congr hone rfl rfl]

theorem Inv.mem_release (v : Nat) : v ∈ done ++ (p.release base w).ready ↔
    v ∈ done ++ p.ready ∨ (v = w ∧ p.pending.getD w 0 = 1) := by
  rw [hp.ready_release hw]
  split
  · next hone => simp [hone, or_assoc]
  · next hone => simp only [hone, and_false, or_false]

/-- Releasing the next successor keeps the invariant. -/
theorem Inv.release : (p.release base w).Inv g done rest base := by
  refine ⟨hp.taken, ?_, ?_, ?_, ?_, ?_, ?_, ?_⟩
  · show (p.pending.modify w (· - 1)).size = _
    rw [Array.size_modify, hp.pending_size]
  · show (p.level.modify w (max · (base + 1))).size = _
    rw [Array.size_modify, hp.level_size]
  · rw [hp.ready_release hw]
    split
    · rw [← List.append_assoc]
      refine List.nodup_append.2 ⟨hp.nodup, List.nodup_singleton w, fun a ha b hb hab => ?_⟩
      rw [hab, List.mem_singleton.1 hb] at ha
      exact hp.next_not_mem hw ha
    · exact hp.nodup
  · intro v hv
    rcases (hp.mem_release hw v).1 hv with hv | ⟨rfl, -⟩
    · exact hp.lt_size v hv
    · exact hw
  · intro v hv
    have h := hp.pending v hv
    rw [hp.pending_release hv, h, List.count_cons]
    simp only [beq_iff_eq]
    omega
  · intro v hv
    rw [hp.mem_release hw, hp.ready v hv, hp.pending_release hv]
    by_cases hwv : w = v
    · subst hwv
      rw [if_pos rfl]
      omega
    · rw [if_neg hwv]
      constructor
      · rintro (h | ⟨h, -⟩)
        · omega
        · exact absurd h.symm hwv
      · intro h
        exact .inl (by omega)
  · intro u hu v huv
    have hwu : w ≠ u := fun e => hp.next_not_mem hw (List.mem_append_left _ (e ▸ hu))
    rw [hp.level_release hw u, if_neg hwu, hp.level_release hw v]
    rcases hp.rising u hu v huv with h | ⟨hv, hbase⟩
    · left
      split
      · omega
      · exact h
    · by_cases hwv : w = v
      · left
        rw [if_pos hwv]
        omega
      · right
        exact ⟨(List.mem_cons.1 hv).resolve_left (Ne.symm hwv), hbase⟩

end

/-- Releasing the first of the successors that are left keeps the invariant. -/
theorem Inv.releaseAll {g : DiGraph} {done first rest : List Nat} {base : Nat} {p : Peeling}
    (hp : p.Inv g done (first ++ rest) base) (hfirst : ∀ w ∈ first, w < g.size) :
    (first.foldl (Peeling.release base) p).Inv g done rest base := by
  induction first generalizing p with
  | nil => exact hp
  | cons w first ih =>
    exact ih (hp.release (hfirst w List.mem_cons_self)) fun v hv =>
      hfirst v (List.mem_cons_of_mem w hv)

/-- Taking a node, before its successors are released. -/
theorem Inv.take {g : DiGraph} {done rest : List Nat} {base u : Nat} {p : Peeling}
    (hp : p.Inv g done [] base) (hready : p.ready = u :: rest) :
    ({ p with ready := rest, taken := p.taken + 1 } : Peeling).Inv g (u :: done) (g.succ u)
      (p.level.getD u 0) := by
  have hperm : (done ++ p.ready).Perm (u :: done ++ rest) := by
    rw [hready]
    exact List.perm_middle
  have hu : u < g.size := hp.lt_size u (by simp [hready])
  have hdone : u ∉ done := by
    have hnodup := hperm.nodup hp.nodup
    rw [List.cons_append, List.nodup_cons] at hnodup
    exact fun h => hnodup.1 (List.mem_append_left _ h)
  refine ⟨?_, hp.pending_size, hp.level_size, hperm.nodup hp.nodup, ?_, ?_, ?_, ?_⟩
  · show p.taken + 1 = done.length + 1
    rw [hp.taken]
  · intro v hv
    exact hp.lt_size v (hperm.mem_iff.2 hv)
  · intro v hv
    have h := hp.pending v hv
    rw [g.incoming_take hu hdone v, List.count_nil] at h
    exact h
  · intro v hv
    rw [← hp.ready v hv]
    exact hperm.mem_iff.symm
  · intro x hx v hxv
    rcases List.mem_cons.1 hx with rfl | hx
    · exact .inr ⟨hxv, rfl⟩
    · rcases hp.rising x hx v hxv with h | ⟨h, -⟩
      · exact .inl h
      · cases h

/-- A step takes a node, if one is ready. -/
theorem Inv.step {g : DiGraph} (hg : g.Closed) {done : List Nat} {base : Nat} {p : Peeling}
    (hp : p.Inv g done [] base) :
    ∃ done' base', (p.step g).Inv g done' [] base' := by
  unfold Peeling.step
  split
  · exact ⟨done, base, hp⟩
  · next u rest hready =>
    have htake := hp.take hready
    rw [← List.append_nil (g.succ u)] at htake
    exact ⟨u :: done, _, htake.releaseAll fun w hw => closed_iff.1 hg u w hw⟩

theorem Inv.run {g : DiGraph} (hg : g.Closed) (n : Nat) {done : List Nat} {base : Nat}
    {p : Peeling} (hp : p.Inv g done [] base) :
    ∃ done' base', (Peeling.run g n p).Inv g done' [] base' := by
  induction n generalizing done base p with
  | zero => exact ⟨done, base, hp⟩
  | succ n ih =>
    obtain ⟨done', base', h⟩ := hp.step hg
    exact ih h

/-- When as many different nodes were taken as there are, all of them were. -/
theorem Inv.perm_done {g : DiGraph} {done : List Nat} {base : Nat} {p : Peeling}
    (hp : p.Inv g done [] base) (htaken : p.taken = g.size) : done.Perm (List.range g.size) := by
  have hnodup : done.Nodup := (List.nodup_append.1 hp.nodup).1
  have hsub : done ⊆ List.range g.size := fun w hw =>
    List.mem_range.2 (hp.lt_size w (List.mem_append_left _ hw))
  refine (List.subperm_of_subset hnodup hsub).perm_of_length_le ?_
  rw [List.length_range, ← hp.taken]
  exact Nat.le_of_eq htaken.symm

end Peeling

/-- When the graph has levels, all nodes were taken. -/
theorem inv_of_levels {g : DiGraph} (hg : g.Closed) {level : Array Nat}
    (h : g.levels = some level) :
    ∃ done base, ∃ p : Peeling, p.Inv g done [] base ∧ p.level = level ∧
      ∀ u < g.size, u ∈ done := by
  obtain ⟨done, base, hp⟩ := (Peeling.inv_start g).run hg g.size
  unfold levels at h
  simp only at h
  split at h
  · next htaken =>
    exact ⟨done, base, _, hp, Option.some.inj h, fun u hu =>
      (hp.perm_done htaken).mem_iff.2 (List.mem_range.2 hu)⟩
  · cases h

theorem size_of_levels {g : DiGraph} (hg : g.Closed) {level : Array Nat}
    (h : g.levels = some level) : level.size = g.size := by
  obtain ⟨done, base, p, hp, rfl, -⟩ := inv_of_levels hg h
  exact hp.level_size

/-- Along an edge the level grows. -/
theorem level_lt_of_levels {g : DiGraph} (hg : g.Closed) {level : Array Nat}
    (h : g.levels = some level) {u v : Nat} (huv : g.Edge u v) :
    level.getD u 0 < level.getD v 0 := by
  obtain ⟨done, base, p, hp, rfl, hall⟩ := inv_of_levels hg h
  rcases hp.rising u (hall u huv.lt_size) v huv with h | ⟨h, -⟩
  · exact h
  · cases h

end DiGraph

end Cyclewise
