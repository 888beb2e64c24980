import Mathlib.Order.Bounds.Defs
import Cyclewise.Proofs.Graph.Acyclic

/-!
# Levels are lengths of longest paths

`PathTo R n b` says that some path of `n` steps ends at `b`.  While a graph is peeled, every level
is the length of some path (`Peeling.Attained`), and once all nodes are taken no path is longer
than the level of its end.  So the level of a node is the length of the longest path that ends at it
(`isGreatest_of_levels`), and below a level no level is missing (`exists_level_eq`).  The peeling
ends with no node ready, and the counters that it decreases are positive (`levels_longest`).
-/

namespace Cyclewise

/-- A path of some number of steps ends at a point. -/
inductive PathTo {α : Type} (R : α → α → Prop) : Nat → α → Prop where
  | start (a : α) : PathTo R 0 a
  | step {n a b} (h : PathTo R n a) (hab : R a b) : PathTo R (n + 1) b

namespace DiGraph

namespace Peeling

variable {g : DiGraph} {p : Peeling}

/-- Every level is the length of a path. -/
def Attained (g : DiGraph) (p : Peeling) : Prop := ∀ v, PathTo g.Edge (p.level.getD v 0) v

theorem attained_start (g : DiGraph) : (start g).Attained g := by
  intro v
  have hlevel : (start g).level.getD v 0 = 0 := by
    unfold start
    simp only [Array.getD_eq_getD_getElem?, Array.getElem?_replicate]
    split <;> rfl
  rw [hlevel]
  exact .start v

/-- A level that grows is one more than the level of the node before. -/
theorem level_release_cases (base : Nat) (p : Peeling) (w v : Nat) :
    (p.release base w).level.getD v 0 = p.level.getD v 0 ∨
      (w = v ∧ (p.release base w).level.getD v 0 = base + 1) := by
  show (p.level.modify w (max · (base + 1))).getD v 0 = _ ∨
    (w = v ∧ (p.level.modify w (max · (base + 1))).getD v 0 = base + 1)
  by_cases hv : v < p.level.size
  · rw [getD_modify p.level _ fun _ => hv]
    by_cases hwv : w = v
    · rw [if_pos hwv]
      rcases Nat.le_total (p.level.getD v 0) (base + 1) with h | h
      · exact .inr ⟨hwv, Nat.max_eq_right h⟩
      · exact .inl (Nat.max_eq_left h)
    · rw [if_neg hwv]
      exact .inl rfl
  · have hout : ∀ {levels : Array Nat}, levels.size = p.level.size → levels.getD v 0 = 0 := by
      intro levels hsize
      rw [Array.getD_eq_getD_getElem?, Array.getElem?_eq_none (by omega), Option.getD_none]
    rw [hout (Array.size_modify ..), hout rfl]
    exact .inl rfl

theorem Attained.release (hp : p.Attained g) {base u w : Nat} (hbase : PathTo g.Edge base u)
    (huw : g.Edge u w) : (p.release base w).Attained g := by
  intro v
  rcases level_release_cases base p w v with h | ⟨rfl, h⟩
  · rw [h]
    exact hp v
  · rw [h]
    exact hbase.step huw

theorem Attained.releaseAll (hp : p.Attained g) {base u : Nat} (hbase : PathTo g.Edge base u)
    {ws : List Nat} (hws : ∀ w ∈ ws, g.Edge u w) :
    (ws.foldl (Peeling.release base) p).Attained g := by
  induction ws generalizing p with
  | nil => exact hp
  | cons w ws ih =>
    exact ih (hp.release hbase (hws w List.mem_cons_self)) fun v hv =>
      hws v (List.mem_cons_of_mem w hv)

theorem Attained.step (hp : p.Attained g) : (p.step g).Attained g := by
  unfold Peeling.step
  split
  · exact hp
  · next u rest hready =>
    have htaken :
        Attained g { p with ready := rest, taken := p.taken + 1 } := hp
    exact htaken.releaseAll (hp u) fun w hw => hw

theorem Attained.run (hp : p.Attained g) (n : Nat) : (Peeling.run g n p).Attained g := by
  induction n generalizing p with
  | zero => exact hp
  | succ n ih => exact ih hp.step

end Peeling

section

variable {g : DiGraph} (hg : g.Closed) {level : Array Nat} (h : g.levels = some level)

include h

theorem pathTo_of_levels (v : Nat) : PathTo g.Edge (level.getD v 0) v := by
  have hattained := (Peeling.attained_start g).run g.size
  unfold levels at h
  simp only at h
  split at h
  · obtain rfl := Option.some.inj h
    exact hattained v
  · cases h

include hg

theorem le_level_of_pathTo {n v : Nat} (hpath : PathTo g.Edge n v) : n ≤ level.getD v 0 := by
  induction hpath with
  | start => exact Nat.zero_le _
  | step _ huv ih => exact Nat.succ_le_of_lt (Nat.lt_of_le_of_lt ih (level_lt_of_levels hg h huv))

/-- The level of a node is the length of the longest path that ends at it. -/
theorem isGreatest_of_levels (v : Nat) :
    IsGreatest {n | PathTo g.Edge n v} (level.getD v 0) :=
  ⟨pathTo_of_levels h v, fun _ hpath => le_level_of_pathTo hg h hpath⟩

/-- A longest path meets every level below its end. -/
theorem exists_level_eq {k v : Nat} (hv : v < g.size) (hk : k ≤ level.getD v 0) :
    ∃ u < g.size, level.getD u 0 = k := by
  have hmeet : ∀ {n v}, PathTo g.Edge n v → v < g.size → level.getD v 0 = n → k ≤ n →
      ∃ u < g.size, level.getD u 0 = k := by
    intro n v hpath
    induction hpath with
    | start v =>
      intro hv hlevel hk
      exact ⟨v, hv, by omega⟩
    | @step n u v hpath huv ih =>
      intro hv hlevel hk
      by_cases hkn : k = n + 1
      · exact ⟨v, hv, by omega⟩
      · -- the node before is just one level below
        have hle := le_level_of_pathTo hg h hpath
        have hlt := level_lt_of_levels hg h huv
        exact ih huv.lt_size (by omega) (by omega)
  exact hmeet (pathTo_of_levels h v) hv rfl hk

end

/-! ## Whole peelings -/

namespace Peeling

/-- In the step from `p`, the counter of `w` is decreased in the state `q`: the first ready node is
taken, and its successors before `w` are released. -/
def Decrements (g : DiGraph) (p q : Peeling) (w : Nat) : Prop :=
  ∃ u rest first last, p.ready = u :: rest ∧ g.succ u = first ++ w :: last ∧
    q = first.foldl (release (p.level.getD u 0)) { p with ready := rest, taken := p.taken + 1 }

variable {g : DiGraph} {done : List Nat} {base : Nat} {p : Peeling}

/-- A step decreases no counter that is zero. -/
theorem Inv.pending_pos_of_decrements (hg : g.Closed) (hp : p.Inv g done [] base) {q : Peeling}
    {w : Nat} (h : p.Decrements g q w) : 0 < q.pending.getD w 0 := by
  obtain ⟨u, rest, first, last, hready, hsucc, rfl⟩ := h
  have hlt : ∀ v ∈ first ++ w :: last, v < g.size := by
    intro v hv
    rw [← hsucc] at hv
    exact closed_iff.1 hg u v hv
  have htake := hp.take hready
  rw [hsucc] at htake
  have hreleased := htake.releaseAll fun v hv => hlt v (List.mem_append_left _ hv)
  exact hreleased.pending_pos (hlt w (by simp))

/-- When all nodes are taken, none is ready. -/
theorem Inv.ready_eq_nil (hp : p.Inv g done [] base) (htaken : p.taken = g.size) :
    p.ready = [] := by
  refine List.eq_nil_iff_forall_not_mem.2 fun v hv => ?_
  have hlt := hp.lt_size v (List.mem_append_right _ hv)
  have hdone := (hp.perm_done htaken).mem_iff.2 (List.mem_range.2 hlt)
  exact (List.nodup_append.1 hp.nodup).2.2 v hdone v hv rfl

/-- After as many steps as there are nodes, none is ready. -/
theorem ready_run_size (hg : g.Closed) : (run g g.size (start g)).ready = [] := by
  rcases taken_run g g.size (start g) with hready | htaken
  · exact hready
  · obtain ⟨done, base, hp⟩ := (inv_start g).run hg g.size
    exact hp.ready_eq_nil (htaken.trans (Nat.zero_add _))

end Peeling

/-- **Levels.**  The peeling comes to its end, with no node ready, and decreases no counter that is
zero.  There are no levels exactly when some node reaches itself; otherwise the level of a node is
the length of the longest path that ends at it. -/
theorem levels_longest {g : DiGraph} (hg : g.Closed) :
    (Peeling.run g g.size (Peeling.start g)).ready = [] ∧
      (∀ n q w, (Peeling.run g n (Peeling.start g)).Decrements g q w → 0 < q.pending.getD w 0) ∧
      (g.levels = none ↔ ∃ u, Relation.TransGen g.Edge u u) ∧
      ∀ level, g.levels = some level → level.size = g.size ∧
        ∀ v < g.size, IsGreatest {n | PathTo g.Edge n v} (level.getD v 0) := by
  refine ⟨Peeling.ready_run_size hg, fun n q w h => ?_, ?_, fun level h => ?_⟩
  · obtain ⟨done, base, hp⟩ := (Peeling.inv_start g).run hg n
    exact hp.pending_pos_of_decrements hg h
  · rw [← Option.not_isSome_iff_eq_none, levels_isSome_iff hg, Acyclic, not_forall_not]
  · exact ⟨size_of_levels hg h, fun v _ => isGreatest_of_levels hg h v⟩

/-- A short and a long way lead from the first node to the last. -/
def shortcut : DiGraph := ⟨#[[1, 2, 3], [3], [1], []]⟩

/-- The longest path is the level; on rings there is none. -/
theorem shortcut_longest : shortcut.Closed ∧ shortcut.levels = some #[0, 2, 1, 3] ∧
    IsGreatest {n | PathTo shortcut.Edge n 3} 3 ∧
    (∃ q, (Peeling.start shortcut).Decrements shortcut q 2 ∧ 0 < q.pending.getD 2 0) ∧
    rings.Closed ∧ rings.levels = none ∧ ∃ u, Relation.TransGen rings.Edge u u := by
  have hshortcut : shortcut.Closed := by decide
  have hrings : rings.Closed := by decide
  have hlevels : shortcut.levels = some #[0, 2, 1, 3] := by decide
  have hnone : rings.levels = none := by decide
  obtain ⟨-, hcounters, -, hlongest⟩ := levels_longest hshortcut
  have hdecrements : (Peeling.start shortcut).Decrements shortcut _ 2 :=
    ⟨0, [], [1], [3], by decide, by decide, rfl⟩
  refine ⟨hshortcut, hlevels, (hlongest _ hlevels).2 3 (by decide), ⟨_, hdecrements, ?_⟩, hrings,
    hnone, (levels_longest hrings).2.2.1.1 hnone⟩
  exact hcounters 0 _ 2 hdecrements

end DiGraph

end Cyclewise
