import Mathlib.Data.Fintype.EquivFin
import Cyclewise.Proofs.Graph.Level

/-!
# Only cycles have no levels

A graph has levels exactly when no node reaches itself (`levels_isSome_iff`).  Levels grow along
edges, so a graph with levels has no cycle.  Conversely, in a graph without cycles a node can be
taken as soon as the nodes before it are taken, so the peeling cannot get stuck before all nodes are
taken (`Inv.mem_done_of_stuck`).
-/

namespace Cyclewise

namespace DiGraph

/-- No node reaches itself. -/
def Acyclic (g : DiGraph) : Prop := ∀ u, ¬ Relation.TransGen g.Edge u u

theorem Acyclic.wellFounded {g : DiGraph} (h : g.Acyclic) :
    WellFounded fun u v : Fin g.size => Relation.TransGen g.Edge u v := by
  have : IsTrans (Fin g.size) fun u v => Relation.TransGen g.Edge u v :=
    ⟨fun _ _ _ huv hvw => huv.trans hvw⟩
  have : Std.Irrefl fun u v : Fin g.size => Relation.TransGen g.Edge u v := ⟨fun u => h u⟩
  exact Finite.wellFounded_of_trans_of_irrefl _

/-- A node has no incoming edges left once the nodes before it are taken. -/
theorem incoming_eq_zero {g : DiGraph} {done : List Nat} {v : Nat}
    (h : ∀ u, g.Edge u v → u ∈ done) : g.incoming done v = 0 := by
  unfold incoming
  rw [List.count_eq_zero, List.mem_flatMap]
  rintro ⟨u, hu, huv⟩
  exact of_decide_eq_true (List.mem_filter.1 hu).2 (h u huv)

namespace Peeling

variable {g : DiGraph} {done : List Nat} {base : Nat} {p : Peeling}

/-- In a graph without cycles, the peeling stops at all nodes. -/
theorem Inv.mem_done_of_stuck (hacyclic : g.Acyclic) (hp : p.Inv g done [] base)
    (hstuck : p.ready = []) {v : Nat} (hv : v < g.size) : v ∈ done := by
  have h : ∀ v : Fin g.size, v.val ∈ done := by
    intro v
    induction v using hacyclic.wellFounded.induction with
    | _ v ih =>
      have hincoming : g.incoming done v = 0 :=
        incoming_eq_zero fun u huv => ih ⟨u, huv.lt_size⟩ (.single huv)
      have hpending := hp.pending v v.isLt
      have hready := (hp.ready v v.isLt).2 (by rw [hpending, hincoming, List.count_nil])
      rwa [hstuck, List.append_nil] at hready
  exact h ⟨v, hv⟩

theorem taken_releaseAll (base : Nat) (vs : List Nat) (p : Peeling) :
    (vs.foldl (release base) p).taken = p.taken := by
  induction vs generalizing p with
  | nil => rfl
  | cons v vs ih => exact ih (p.release base v)

theorem step_of_stuck (h : p.ready = []) : p.step g = p := by
  unfold step
  rw [h]

theorem run_of_stuck (h : p.ready = []) (n : Nat) : run g n p = p := by
  induction n with
  | zero => rfl
  | succ n ih => rw [run, step_of_stuck h, ih]

/-- After `n` steps there are `n` more nodes taken, or none is ready. -/
theorem taken_run (g : DiGraph) (n : Nat) (p : Peeling) :
    (run g n p).ready = [] ∨ (run g n p).taken = p.taken + n := by
  induction n generalizing p with
  | zero => exact .inr rfl
  | succ n ih =>
    cases hready : p.ready with
    | nil =>
      left
      rw [run_of_stuck hready, hready]
    | cons u rest =>
      have htaken : (p.step g).taken = p.taken + 1 := by
        unfold step
        rw [hready]
        exact taken_releaseAll ..
      rw [run]
      rcases ih (p.step g) with h | h
      · exact .inl h
      · right
        omega

end Peeling

/-- A graph has levels exactly when it has no cycle. -/
theorem levels_isSome_iff {g : DiGraph} (hg : g.Closed) : g.levels.isSome ↔ g.Acyclic := by
  constructor
  · intro h u hcycle
    obtain ⟨level, hlevel⟩ := Option.isSome_iff_exists.1 h
    have hlt : ∀ {v}, Relation.TransGen g.Edge u v → level.getD u 0 < level.getD v 0 := by
      intro v hpath
      induction hpath with
      | single huv => exact level_lt_of_levels hg hlevel huv
      | tail _ hvw ih => exact ih.trans (level_lt_of_levels hg hlevel hvw)
    exact Nat.lt_irrefl _ (hlt hcycle)
  · intro hacyclic
    obtain ⟨done, base, hp⟩ := (Peeling.inv_start g).run hg g.size
    have htaken : (Peeling.run g g.size (Peeling.start g)).taken = g.size := by
      rcases Peeling.taken_run g g.size (Peeling.start g) with hstuck | h
      · have hperm : done.Perm (List.range g.size) := by
          refine (List.perm_ext_iff_of_nodup (List.nodup_append.1 hp.nodup).1 List.nodup_range).2 ?_
          intro v
          rw [List.mem_range]
          constructor
          · exact fun hv => hp.lt_size v (List.mem_append_left _ hv)
          · exact hp.mem_done_of_stuck hacyclic hstuck
        rw [hp.taken, hperm.length_eq, List.length_range]
      · rw [h]
        exact Nat.zero_add _
    unfold levels
    rw [if_pos htaken]
    rfl

end DiGraph

end Cyclewise
