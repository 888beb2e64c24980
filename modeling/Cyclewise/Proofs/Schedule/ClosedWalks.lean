import Cyclewise.Proofs.Schedule.Cycles

/-!
# Blocks on closed walks

A block lies on a closed walk when one or more steps lead from it back to it.  Either another block
is on such a walk, or the block precedes itself (`exists_other_of_closed`).  A report is on two or
more blocks, so just the blocks of the first kind are named (`mem_reports_iff`).

A graph is refused when it has a closed walk.  Where constraints and retained edges are refused
together, no block precedes itself, and all blocks on closed walks are named.  Where the constraints
are refused, that holds unless one of them joins a block with itself (`refused_blocks_named`).  A
block that is on no other closed walk is refused without being named (`own_constraint_unnamed`).
-/

namespace Cyclewise

open Relation (ReflTransGen TransGen)

/-- A walk back to its start passes another point, unless one step leads from the start to it. -/
theorem exists_other_of_closed {α : Type} {R : α → α → Prop} {a : α} (h : TransGen R a a)
    (hself : ¬ R a a) : ∃ b, b ≠ a ∧ TransGen R a b ∧ TransGen R b a := by
  obtain ⟨b, hab, hback⟩ := TransGen.head'_iff.1 h
  have hne : b ≠ a := by
    rintro rfl
    exact hself hab
  rcases Relation.reflTransGen_iff_eq_or_transGen.1 hback with heq | hback
  · exact absurd heq.symm hne
  · exact ⟨b, hne, .single hab, hback⟩

/-- A member of a group is on a closed walk with another block. -/
theorem IsGroup.exists_other {R : BlockId → BlockId → Prop} {group : List BlockId}
    (h : IsGroup R group) {a : BlockId} (ha : a ∈ group) :
    ∃ b, b ≠ a ∧ TransGen R a b ∧ TransGen R b a := by
  obtain ⟨b, hb, hne⟩ : ∃ b ∈ group, b ≠ a := by
    by_contra hnone
    simp only [not_exists, not_and, not_not] at hnone
    have hone : group.length ≤ 1 := by
      have hnodup := nodup_of_ascending h.ascending
      have hrep := List.eq_replicate_of_mem hnone
      rw [hrep] at hnodup
      exact List.nodup_replicate.1 hnodup
    have := h.two_le
    omega
  obtain ⟨hto, hback⟩ := (h.mem_iff a ha b).1 hb
  have hleads : ∀ {a b}, ReflTransGen R a b → b ≠ a → TransGen R a b := fun h hne =>
    (Relation.reflTransGen_iff_eq_or_transGen.1 h).resolve_left hne
  exact ⟨b, hne, hleads hto hne, hleads hback hne.symm⟩

/-! ## Refused graphs -/

section Refused

variable {signals : SignalTable} {x : Extraction} {constraints : List Constraint}
  {retained : List InferredEdge} {nodes : List BlockId}
  (hnodes : nodes.Pairwise (·.index < ·.index)) {g : DiGraph}
  (hg : Schedule.addPairs nodes (.empty nodes.length)
    (constraints.map (fun c => (c.before, c.after)) ++
      retained.map (fun e => (e.writer, e.reader))) = .ok g)

include hnodes hg

/-- The reports on a graph name the blocks that are on a closed walk with another block. -/
theorem mem_reports_iff (b : BlockId) :
    (∃ c ∈ CycleReport.ofGraph signals x constraints retained nodes g, b ∈ c.members) ↔
      ∃ b', b' ≠ b ∧ TransGen (Precedes constraints retained) b b' ∧
        TransGen (Precedes constraints retained) b' b := by
  have hreports := reports_ofGraph signals x hnodes hg
  constructor
  · rintro ⟨c, hc, hb⟩
    exact ((hreports.mem_groups c.members).1 (List.mem_map_of_mem hc)).exists_other hb
  · rintro ⟨b', hne, hto, hback⟩
    rw [← precedes_eq_pairs] at hto hback
    obtain ⟨group, hgroup, hb⟩ := exists_group hnodes hg hne.symm hto.to_reflTransGen
      hback.to_reflTransGen
    rw [precedes_eq_pairs] at hgroup
    obtain ⟨c, hc, rfl⟩ := List.mem_map.1 ((hreports.mem_groups group).2 hgroup)
    exact ⟨c, hc, hb⟩

/-- A graph without levels has a closed walk. -/
theorem exists_closed_of_levels (hlevels : g.levels = none) :
    ∃ b, TransGen (Precedes constraints retained) b b := by
  rw [← precedes_eq_pairs]
  by_contra hacyclic
  have hsome := (Schedule.levels_isSome_iff_pairs (nodup_of_ascending hnodes) hg).2 hacyclic
  rw [hlevels] at hsome
  cases hsome

/-- There is a report on a graph without levels, unless some block precedes itself. -/
theorem reports_ne_nil (hlevels : g.levels = none)
    (hself : ∀ b, ¬ Precedes constraints retained b b) :
    CycleReport.ofGraph signals x constraints retained nodes g ≠ [] := by
  obtain ⟨b, hb⟩ := exists_closed_of_levels hnodes hg hlevels
  obtain ⟨c, hc, -⟩ := (mem_reports_iff hnodes hg _).2 (exists_other_of_closed hb (hself b))
  exact List.ne_nil_of_mem hc

end Refused

/-! ## Refusals -/

/-- Without inferred edges, blocks precede each other by constraints. -/
theorem precedes_nil {constraints : List Constraint} {a b : BlockId} :
    Precedes constraints [] a b ↔ ⟨a, b⟩ ∈ constraints := by
  simp [Precedes]

theorem transGen_precedes_nil (constraints : List Constraint) :
    TransGen (Precedes constraints []) = Chain constraints := by
  have hprecedes : Precedes constraints [] = fun a b => ⟨a, b⟩ ∈ constraints := by
    funext a b
    exact propext precedes_nil
  rw [hprecedes]
  rfl

/-- No block precedes itself when the constraints have no cycle, as the two ends of an inferred edge
differ. -/
theorem not_precedes_self (x : Extraction) (nets : NetMap) {constraints : List Constraint}
    (hacyclic : ¬ ∃ b, Chain constraints b b) (b : BlockId) :
    ¬ Precedes constraints (InferredEdge.retained x nets constraints) b b := by
  rintro (hconstraint | ⟨e, he, rfl, hreader⟩)
  · exact hacyclic ⟨b, .single hconstraint⟩
  · obtain ⟨n, w, r, -, -, -, hne, rfl⟩ := InferredEdge.mem_inferAll.1 (List.mem_of_mem_filter he)
    exact hne hreader.symm

section

variable {signals : SignalTable} {x : Extraction} {nets : NetMap} {constraints : List Constraint}
  {cycles : List CycleReport}

/-- The graph behind a refusal for a cycle of constraints. -/
theorem exists_graph_of_constraintCycle
    (h : schedule signals x nets constraints = .error (.constraintCycle cycles)) :
    ∃ nodes : List BlockId, nodes.Pairwise (·.index < ·.index) ∧ ∃ g : DiGraph,
      Schedule.addPairs nodes (.empty nodes.length)
        (constraints.map (fun c => (c.before, c.after)) ++
          ([] : List InferredEdge).map fun e => (e.writer, e.reader)) = .ok g ∧
      g.levels = none ∧ cycles = CycleReport.ofGraph signals x constraints [] nodes g := by
  refine ⟨_, pairwise_ascendingBy BlockId.index x.analyzed.keys, ?_⟩
  rcases schedule_eq_error h rfl with ⟨b, he⟩ | ⟨explicit, hexplicit, hlevels, he⟩ |
      ⟨explicit, full, -, -, -, he⟩
  · cases he
  · rw [List.map_nil, List.append_nil]
    exact ⟨explicit, hexplicit, hlevels, ScheduleError.constraintCycle.inj he⟩
  · cases he

/-- The graph behind a refusal for a combinational cycle; the constraints alone have no cycle. -/
theorem exists_graph_of_combinationalCycle
    (h : schedule signals x nets constraints = .error (.combinationalCycle cycles)) :
    (¬ ∃ b, Chain constraints b b) ∧
    ∃ nodes : List BlockId, nodes.Pairwise (·.index < ·.index) ∧ ∃ g : DiGraph,
      Schedule.addPairs nodes (.empty nodes.length)
        (constraints.map (fun c => (c.before, c.after)) ++
          (InferredEdge.retained x nets constraints).map fun e => (e.writer, e.reader)) = .ok g ∧
      g.levels = none ∧
      cycles = CycleReport.ofGraph signals x constraints (InferredEdge.retained x nets constraints)
        nodes g := by
  have hascend := pairwise_ascendingBy BlockId.index x.analyzed.keys
  have hnodup := nodup_of_ascending hascend
  rcases schedule_eq_error h rfl with ⟨b, he⟩ | ⟨explicit, -, -, he⟩ |
      ⟨explicit, full, hgraphs, hlevels, hnone, he⟩
  · cases he
  · cases he
  · have hfull := Schedule.addPairs_append hgraphs.explicit_eq hgraphs.full_eq
    obtain rfl := ScheduleError.combinationalCycle.inj he
    rw [hgraphs.retained_eq hnodup] at hfull ⊢
    exact ⟨(hgraphs.explicit_levels hnodup).1 hlevels, _, hascend, full, hfull, hnone, rfl⟩

end

/-- **Named blocks.**  The constraints have a closed walk when they are refused, and the reports name
just the blocks that are on one with another block.  So they name every block on a closed walk that
no constraint joins with itself, and there is a report unless there is such a constraint.  When
constraints and retained edges are refused together, there always is a report, and the reports name
every block on a closed walk. -/
theorem refused_blocks_named (signals : SignalTable) (x : Extraction) (nets : NetMap)
    (constraints : List Constraint) (cycles : List CycleReport) :
    (schedule signals x nets constraints = .error (.constraintCycle cycles) →
      (∃ b, Chain constraints b b) ∧
      (∀ b, (∃ c ∈ cycles, b ∈ c.members) ↔
        ∃ b', b' ≠ b ∧ Chain constraints b b' ∧ Chain constraints b' b) ∧
      (∀ b, ⟨b, b⟩ ∉ constraints → Chain constraints b b → ∃ c ∈ cycles, b ∈ c.members) ∧
      ((∀ b, ⟨b, b⟩ ∉ constraints) → cycles ≠ [])) ∧
    (schedule signals x nets constraints = .error (.combinationalCycle cycles) →
      cycles ≠ [] ∧
      ∀ b, TransGen (Precedes constraints (InferredEdge.retained x nets constraints)) b b →
        ∃ c ∈ cycles, b ∈ c.members) := by
  constructor
  · intro h
    obtain ⟨nodes, hnodes, g, hg, hlevels, rfl⟩ := exists_graph_of_constraintCycle h
    have hclosed := exists_closed_of_levels hnodes hg hlevels
    have hnamed : ∀ b, (∃ c ∈ CycleReport.ofGraph signals x constraints [] nodes g,
        b ∈ c.members) ↔ _ := mem_reports_iff hnodes hg
    rw [transGen_precedes_nil] at hclosed
    simp only [transGen_precedes_nil] at hnamed
    refine ⟨hclosed, hnamed, fun b hself hb => (hnamed b).2 (exists_other_of_closed hb hself),
      fun hself => ?_⟩
    exact reports_ne_nil hnodes hg hlevels fun b hb => hself b (precedes_nil.1 hb)
  · intro h
    obtain ⟨hacyclic, nodes, hnodes, g, hg, hlevels, rfl⟩ := exists_graph_of_combinationalCycle h
    have hself := not_precedes_self x nets hacyclic
    refine ⟨reports_ne_nil hnodes hg hlevels hself, fun b hb => ?_⟩
    exact (mem_reports_iff hnodes hg _).2 (exists_other_of_closed hb (hself b))

/-- The two blocks of `Design.feedback` are named, whether they form a loop through their nets or by
constraints, of which one joins block 1 with itself. -/
theorem feedback_named : ∃ x nets cycles cycles', extract Design.feedback.liveBlocks = .ok x ∧
    resolve Design.feedback.signals [] x ⟨false, Hierarchy.top⟩ = .ok nets ∧
    (schedule Design.feedback.signals x nets [] = .error (.combinationalCycle cycles) ∧
      cycles ≠ []) ∧
    schedule Design.feedback.signals x nets [⟨⟨0⟩, ⟨1⟩⟩, ⟨⟨1⟩, ⟨0⟩⟩, ⟨⟨1⟩, ⟨1⟩⟩] =
        .error (.constraintCycle cycles') ∧
      (∃ c ∈ cycles', ⟨0⟩ ∈ c.members) ∧ ∃ c ∈ cycles', ⟨1⟩ ∈ c.members := by
  have hcheck : ((extract Design.feedback.liveBlocks).toOption.any fun x =>
      (resolve Design.feedback.signals [] x ⟨false, Hierarchy.top⟩).toOption.any fun nets =>
        (match schedule Design.feedback.signals x nets [] with
          | .error (.combinationalCycle _) => true
          | _ => false) &&
        (match schedule Design.feedback.signals x nets
            [⟨⟨0⟩, ⟨1⟩⟩, ⟨⟨1⟩, ⟨0⟩⟩, ⟨⟨1⟩, ⟨1⟩⟩] with
          | .error (.constraintCycle _) => true
          | _ => false)) = true := by
    decide +kernel
  obtain ⟨x, hx, hcheck⟩ := Design.exists_ok_of_any hcheck
  obtain ⟨nets, hnets, hcheck⟩ := Design.exists_ok_of_any hcheck
  obtain ⟨hloop, hopposite⟩ := Bool.and_eq_true_iff.1 hcheck
  split at hloop
  · next cycles hs =>
    split at hopposite
    · next cycles' hs' =>
      obtain ⟨-, hnamed, hunjoined, -⟩ := (refused_blocks_named _ x nets _ cycles').1 hs'
      have hto : Chain [⟨⟨0⟩, ⟨1⟩⟩, ⟨⟨1⟩, ⟨0⟩⟩, ⟨⟨1⟩, ⟨1⟩⟩] ⟨0⟩ ⟨1⟩ := .single (by decide)
      have hback : Chain [⟨⟨0⟩, ⟨1⟩⟩, ⟨⟨1⟩, ⟨0⟩⟩, ⟨⟨1⟩, ⟨1⟩⟩] ⟨1⟩ ⟨0⟩ := .single (by decide)
      exact ⟨x, nets, cycles, cycles', hx, hnets,
        ⟨hs, ((refused_blocks_named _ x nets _ cycles).2 hs).1⟩, hs',
        hunjoined ⟨0⟩ (by decide) (hto.trans hback),
        (hnamed ⟨1⟩).2 ⟨⟨0⟩, by decide, hback, hto⟩⟩
    · cases hopposite
  · cases hloop

/-- A constraint that joins block 0 with itself is refused as a cycle, and the refusal names no
block. -/
theorem own_constraint_unnamed : ∃ x nets, extract Design.feedback.liveBlocks = .ok x ∧
    resolve Design.feedback.signals [] x ⟨false, Hierarchy.top⟩ = .ok nets ∧
    (⟨0⟩ : BlockId) ∈ x.analyzed.keys ∧ Chain [⟨⟨0⟩, ⟨0⟩⟩] ⟨0⟩ ⟨0⟩ ∧
    schedule Design.feedback.signals x nets [⟨⟨0⟩, ⟨0⟩⟩] = .error (.constraintCycle []) := by
  have hcheck : ((extract Design.feedback.liveBlocks).toOption.any fun x =>
      (resolve Design.feedback.signals [] x ⟨false, Hierarchy.top⟩).toOption.any fun nets =>
        decide ((⟨0⟩ : BlockId) ∈ x.analyzed.keys) &&
        (match schedule Design.feedback.signals x nets [⟨⟨0⟩, ⟨0⟩⟩] with
          | .error e => decide (e = .constraintCycle [])
          | _ => false)) = true := by
    decide +kernel
  obtain ⟨x, hx, hcheck⟩ := Design.exists_ok_of_any hcheck
  obtain ⟨nets, hnets, hcheck⟩ := Design.exists_ok_of_any hcheck
  obtain ⟨hkey, hrefused⟩ := Bool.and_eq_true_iff.1 hcheck
  split at hrefused
  · next e hs =>
    obtain rfl := of_decide_eq_true hrefused
    exact ⟨x, nets, hx, hnets, of_decide_eq_true hkey, .single (by decide), hs⟩
  · cases hrefused

end Cyclewise
