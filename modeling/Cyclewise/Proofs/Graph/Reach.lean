import Mathlib.Algebra.Order.BigOperators.Group.Finset
import Mathlib.Logic.Relation
import Cyclewise.Graph.Reach
import Cyclewise.Proofs.BitSet

/-!
# The table of `reach`

A search has met the nodes that it has marked and those on its stack.  It meets only what its start
reaches, and it has met all successors of its start and of the marked nodes (`Flood.Inv`), so that
once the stack is empty the marked nodes are those that the start reaches.  The stack is emptied: a
step takes one unit of `Flood.work`, which counts the stacked nodes and the edges of the nodes not
marked.  So the table is the transitive closure of the edges (`reach_closure`).
-/

namespace Cyclewise

open Relation (TransGen)

namespace DiGraph

/-- An edge of the graph. -/
def Edge (g : DiGraph) (u v : Nat) : Prop := v ∈ g.succ u

theorem Edge.lt_size {g : DiGraph} {u v : Nat} (h : g.Edge u v) : u < g.size := by
  apply Classical.byContradiction
  intro hu
  unfold Edge succ at h
  rw [Array.getD_eq_getD_getElem?, Array.getElem?_eq_none (Nat.le_of_not_lt hu)] at h
  exact absurd h List.not_mem_nil

theorem reaches_iff {rows : Array BitSet} {u v : Nat} :
    reaches rows u v = true ↔ v ∈ rows.getD u ∅ := Iff.rfl

namespace Flood

/-- What a step does. -/
theorem step_cases (g : DiGraph) (s : Flood) :
    (s.stack = [] ∧ s.step g = s) ∨
    ∃ v stack, s.stack = v :: stack ∧
      ((v ∈ s.seen ∧ s.step g = ⟨s.seen.insert v, stack⟩) ∨
        (v ∉ s.seen ∧ s.step g = ⟨s.seen.insert v, (g.succ v).reverse ++ stack⟩)) := by
  cases hstack : s.stack with
  | nil =>
    refine .inl ⟨rfl, ?_⟩
    simp only [step, hstack]
  | cons v stack =>
    refine .inr ⟨v, stack, rfl, ?_⟩
    cases hv : s.seen.contains v with
    | true => exact .inl ⟨hv, by simp [step, hstack, BitSet.insertNew, hv]⟩
    | false =>
      exact .inr ⟨Bool.eq_false_iff.1 hv, by simp [step, hstack, BitSet.insertNew, hv, push]⟩

/-! ## What is met -/

/-- A node is marked, or on the stack. -/
def Met (s : Flood) (v : Nat) : Prop := v ∈ s.seen ∨ v ∈ s.stack

/-- A search from `u` meets what `u` reaches, and the successors of whatever it has marked. -/
structure Inv (g : DiGraph) (u : Nat) (s : Flood) : Prop where
  reached : ∀ v, s.Met v → TransGen g.Edge u v
  closed : ∀ v, v = u ∨ v ∈ s.seen → ∀ w, g.Edge v w → s.Met w

variable {g : DiGraph} {u : Nat} {s : Flood}

theorem inv_push (g : DiGraph) (u : Nat) : Inv g u (push g ⟨BitSet.withCapacity g.size, []⟩ u) := by
  have hmet : ∀ v, (push g ⟨BitSet.withCapacity g.size, []⟩ u).Met v ↔ g.Edge u v := by
    intro v
    simp [Met, push, Edge]
  refine ⟨fun v hv => .single ((hmet v).1 hv), fun v hv w hvw => (hmet w).2 ?_⟩
  rcases hv with rfl | hv
  · exact hvw
  · exact absurd hv (BitSet.not_mem_withCapacity g.size v)

/-- A step keeps the invariant. -/
theorem Inv.step (h : Inv g u s) : Inv g u (s.step g) := by
  rcases step_cases g s with ⟨-, hstep⟩ | ⟨v, stack, hstack, ⟨hv, hstep⟩ | ⟨-, hstep⟩⟩
  · rw [hstep]
    exact h
  · -- the node was marked before, so nothing new is met
    have hmet : ∀ x, (s.step g).Met x ↔ s.Met x := by
      intro x
      rw [hstep]
      simp only [Met, hstack, BitSet.mem_insert, List.mem_cons]
      tauto
    refine ⟨fun x hx => h.reached x ((hmet x).1 hx), fun x hx w hxw => (hmet w).2 ?_⟩
    refine h.closed x (hx.imp_right fun hx => ?_) w hxw
    rw [hstep] at hx
    rcases BitSet.mem_insert.1 hx with rfl | hx
    · exact hv
    · exact hx
  · have hmet : ∀ x, (s.step g).Met x ↔ s.Met x ∨ g.Edge v x := by
      intro x
      rw [hstep]
      simp only [Met, Edge, hstack, BitSet.mem_insert, List.mem_append, List.mem_reverse,
        List.mem_cons]
      tauto
    have huv : TransGen g.Edge u v := h.reached v (.inr (hstack ▸ List.mem_cons_self))
    refine ⟨fun x hx => ?_, fun x hx w hxw => (hmet w).2 ?_⟩
    · exact ((hmet x).1 hx).elim (h.reached x) huv.tail
    · by_cases hxv : x = v
      · exact .inr (hxv ▸ hxw)
      · refine .inl (h.closed x (hx.imp_right fun hx => ?_) w hxw)
        rw [hstep] at hx
        exact (BitSet.mem_insert.1 hx).resolve_left hxv

/-- Once the stack is empty, the marked nodes are those that the start reaches. -/
theorem Inv.mem_seen_iff (h : Inv g u s) (hstack : s.stack = []) {v : Nat} :
    v ∈ s.seen ↔ TransGen g.Edge u v := by
  have hseen : ∀ {x}, s.Met x → x ∈ s.seen := fun hx => hx.resolve_right (by simp [hstack])
  constructor
  · exact fun hv => h.reached v (.inl hv)
  · intro huv
    induction huv with
    | single huw => exact hseen (h.closed u (.inl rfl) _ huw)
    | tail _ hwx ih => exact hseen (h.closed _ (.inr ih) _ hwx)

/-! ## Work -/

/-- The number of edges of the nodes that are not marked. -/
def unmarkedEdges (g : DiGraph) (seen : BitSet) : Nat :=
  ∑ v ∈ Finset.range g.size with v ∉ seen, (g.succ v).length

/-- The steps to take, if every edge of an unmarked node comes to the stack. -/
def work (g : DiGraph) (s : Flood) : Nat := s.stack.length + unmarkedEdges g s.seen

theorem unmarkedEdges_le (g : DiGraph) (seen : BitSet) : unmarkedEdges g seen ≤ g.edgeCount := by
  have hcount : g.edgeCount = ∑ v ∈ Finset.range g.size, (g.succ v).length := List.length_flatMap
  rw [hcount]
  exact Finset.sum_le_sum_of_subset (Finset.filter_subset ..)

theorem unmarkedEdges_insert_of_mem {seen : BitSet} {v : Nat} (hv : v ∈ seen) :
    unmarkedEdges g (seen.insert v) = unmarkedEdges g seen := by
  have hmem : ∀ w, w ∈ seen.insert v ↔ w ∈ seen := by
    intro w
    rw [BitSet.mem_insert]
    exact ⟨fun hw => hw.elim (fun e => e ▸ hv) id, .inr⟩
  simp only [unmarkedEdges, hmem]

/-- Marking a node takes its edges out of the count. -/
theorem unmarkedEdges_insert_of_not_mem {seen : BitSet} {v : Nat} (hv : v ∉ seen) :
    (g.succ v).length + unmarkedEdges g (seen.insert v) = unmarkedEdges g seen := by
  have herase : (Finset.range g.size).filter (· ∉ seen.insert v) =
      ((Finset.range g.size).filter (· ∉ seen)).erase v := by
    ext w
    simp only [Finset.mem_filter, Finset.mem_erase, BitSet.mem_insert, not_or]
    tauto
  unfold unmarkedEdges
  rw [herase]
  by_cases hlt : v < g.size
  · have hmem : v ∈ (Finset.range g.size).filter (· ∉ seen) :=
      Finset.mem_filter.2 ⟨Finset.mem_range.2 hlt, hv⟩
    exact Finset.add_sum_erase _ (fun w => (g.succ w).length) hmem
  · -- what is not a node has no edges
    have hsucc : g.succ v = [] := List.eq_nil_iff_forall_not_mem.2 fun w hw =>
      hlt (Edge.lt_size (v := w) hw)
    rw [hsucc, Finset.erase_eq_of_notMem fun h => hlt (Finset.mem_range.1 (Finset.mem_filter.1 h).1)]
    exact Nat.zero_add _

/-- A step takes one unit of work. -/
theorem work_step (hstack : s.stack ≠ []) : work g (s.step g) + 1 = work g s := by
  rcases step_cases g s with ⟨hnil, -⟩ | ⟨v, stack, hcons, ⟨hv, hstep⟩ | ⟨hv, hstep⟩⟩
  · exact absurd hnil hstack
  · have hedges := unmarkedEdges_insert_of_mem (g := g) hv
    simp only [work, hstep, hcons, List.length_cons]
    omega
  · have hedges := unmarkedEdges_insert_of_not_mem (g := g) hv
    simp only [work, hstep, hcons, List.length_cons, List.length_append, List.length_reverse]
    omega

/-! ## Whole searches -/

theorem run_of_stack_eq_nil (g : DiGraph) {s : Flood} (h : s.stack = []) (n : Nat) :
    run g n s = s := by
  induction n with
  | zero => rfl
  | succ n ih =>
    have hstep : s.step g = s := by simp only [step, h]
    rw [run, hstep, ih]

/-- With as many steps as there is work, the stack is emptied. -/
theorem Inv.run (h : Inv g u s) {n : Nat} (hn : work g s ≤ n) :
    Inv g u (run g n s) ∧ (run g n s).stack = [] := by
  induction n generalizing s with
  | zero =>
    have hlength : s.stack.length = 0 := by
      unfold work at hn
      omega
    exact ⟨h, List.eq_nil_of_length_eq_zero hlength⟩
  | succ n ih =>
    by_cases hstack : s.stack = []
    · rw [run_of_stack_eq_nil g hstack]
      exact ⟨h, hstack⟩
    · have := work_step (g := g) hstack
      exact ih h.step (by omega)

theorem Inv.finish (h : Inv g u s) : Inv g u (s.finish g) ∧ (s.finish g).stack = [] :=
  h.run (Nat.add_le_add_left (unmarkedEdges_le g s.seen) _)

end Flood

/-- After the searches from the first `k` nodes the stack is empty, and their results are right. -/
theorem foldl_sweep (g : DiGraph) (k : Nat) :
    ((List.range k).foldl g.sweep (#[], [])).2 = [] ∧
      ((List.range k).foldl g.sweep (#[], [])).1.size = k ∧
      ∀ u < k, ∀ v, v ∈ ((List.range k).foldl g.sweep (#[], [])).1.getD u ∅ ↔
        TransGen g.Edge u v := by
  induction k with
  | zero => exact ⟨rfl, rfl, fun u hu => absurd hu (Nat.not_lt_zero u)⟩
  | succ k ih =>
    rw [List.range_succ, List.foldl_append, List.foldl_cons, List.foldl_nil]
    generalize (List.range k).foldl g.sweep (#[], []) = swept at ih ⊢
    obtain ⟨rows, stack⟩ := swept
    obtain ⟨rfl, rfl, hrows⟩ : stack = [] ∧ rows.size = k ∧ _ := ih
    obtain ⟨hinv, hstack⟩ := (Flood.inv_push g rows.size).finish
    refine ⟨hstack, Array.size_push .., fun u hu v => ?_⟩
    unfold sweep
    rw [Array.getD_eq_getD_getElem?, Array.getElem?_push]
    split
    · next heq =>
      subst heq
      exact hinv.mem_seen_iff hstack
    · next hne =>
      rw [← Array.getD_eq_getD_getElem?]
      exact hrows u (by omega) v

/-- The table of `reach` is the transitive closure of the edges. -/
theorem reaches_reach (g : DiGraph) (u v : Nat) :
    reaches g.reach u v = true ↔ TransGen g.Edge u v := by
  obtain ⟨-, hsize, hrows⟩ := g.foldl_sweep g.size
  rw [reaches_iff]
  by_cases hu : u < g.size
  · exact hrows u hu v
  · have hout : g.reach.getD u ∅ = ∅ := by
      rw [Array.getD_eq_getD_getElem?, Array.getElem?_eq_none (hsize.symm ▸ Nat.le_of_not_lt hu),
        Option.getD_none]
    rw [hout]
    refine ⟨fun hv => absurd hv (BitSet.not_mem_empty v), fun huv => ?_⟩
    obtain ⟨w, huw, -⟩ := Relation.TransGen.head'_iff.1 huv
    exact absurd huw.lt_size hu

/-- **Reachability.**  Every search comes to its end, which leaves the stack empty to the next one,
and the row of a node holds exactly the nodes at the end of a path of one or more edges from it. -/
theorem reach_closure (g : DiGraph) :
    (∀ k ≤ g.size, ((List.range k).foldl g.sweep (#[], [])).2 = []) ∧ g.reach.size = g.size ∧
      ∀ u < g.size, ∀ v, (g.reach.getD u ∅).contains v = true ↔ TransGen g.Edge u v := by
  obtain ⟨-, hsize, -⟩ := g.foldl_sweep g.size
  exact ⟨fun k _ => (g.foldl_sweep k).1, hsize, fun u _ v => g.reaches_reach u v⟩

/-- Two rings of which one leads to the other, and a node that leads to itself. -/
def rings : DiGraph := ⟨#[[1], [0, 2], [3], [4], [2], [5]]⟩

/-- The first ring reaches the second one, which does not reach it, and the last node reaches
itself. -/
theorem rings_reach : ((List.range 3).foldl rings.sweep (#[], [])).2 = [] ∧
    TransGen rings.Edge 0 4 ∧ ¬ TransGen rings.Edge 4 0 ∧ TransGen rings.Edge 5 5 := by
  obtain ⟨hends, -, hrows⟩ := reach_closure rings
  refine ⟨hends 3 (by decide), ?_, fun h => ?_, ?_⟩
  · exact (hrows 0 (by decide) 4).1 (by decide)
  · exact absurd ((hrows 4 (by decide) 0).2 h) (by decide)
  · exact (hrows 5 (by decide) 5).1 (by decide)

end DiGraph

end Cyclewise
