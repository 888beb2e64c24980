import Cyclewise.Proofs.Graph.Component
import Cyclewise.Proofs.Schedule.Acceptance

/-!
# Reports of cycles

A refusal of `schedule` reports on the groups of two or more blocks that all precede each other: the
strongly connected components of the graph that was refused, read as blocks (`reports_ofGraph`).  As
the constraints alone have no cycle once the second graph is refused, each of its groups holds both
ends of an inferred edge (`reported_cycles`).
-/

namespace Cyclewise

open Relation (ReflTransGen TransGen)

/-- The blocks that a report is on. -/
def CycleReport.members (c : CycleReport) : List BlockId := c.blocks.map Prod.fst

/-- Two or more blocks, ascending, that `R` leads from each to each, and all such blocks. -/
structure IsGroup (R : BlockId → BlockId → Prop) (group : List BlockId) : Prop where
  two_le : 2 ≤ group.length
  ascending : group.Pairwise (·.index < ·.index)
  mem_iff : ∀ a ∈ group, ∀ b, b ∈ group ↔ ReflTransGen R a b ∧ ReflTransGen R b a

/-- The reports on all groups of blocks that constraints and retained edges put before each other,
by ascending smallest block.  A report names the blocks of its group and lists the constraints and
retained edges with both ends in the group. -/
structure Reports (signals : SignalTable) (x : Extraction) (constraints : List Constraint)
    (retained : List InferredEdge) (cycles : List CycleReport) : Prop where
  mem_groups : ∀ group,
    group ∈ cycles.map CycleReport.members ↔ IsGroup (Precedes constraints retained) group
  ascending : cycles.Pairwise fun c c' =>
    ∃ b ∈ c.members, ∀ b' ∈ c'.members, b.index < b'.index
  blocks : ∀ c ∈ cycles, c.blocks = c.members.map fun b => (b, x.name b)
  edges : ∀ c ∈ cycles, c.edges =
    (constraints.filter fun k => k.before ∈ c.members ∧ k.after ∈ c.members).map
        (fun k => .explicit k.before k.after) ++
      (retained.filter fun e => e.writer ∈ c.members ∧ e.reader ∈ c.members).map fun e =>
        .inferred e.writer e.reader e.net (e.signals.map fun s => (s, signals.path s)) e.sites

/-! ## Components as blocks -/

section Blocks

variable {nodes : List BlockId} (hnodes : nodes.Pairwise (·.index < ·.index))
  {pairs : List (BlockId × BlockId)} {g : DiGraph}
  (hg : Schedule.addPairs nodes (.empty nodes.length) pairs = .ok g)

include hg in
/-- Blocks that lead to each other have places. -/
theorem exists_place {a b : BlockId} (hab : a ≠ b)
    (h : ReflTransGen (fun a b => (a, b) ∈ pairs) a b) : ∃ u : Nat, nodes[u]? = some a := by
  obtain ⟨-, hmem, -⟩ := Schedule.edge_addPairs (DiGraph.size_empty _) hg
  rcases Relation.reflTransGen_iff_eq_or_transGen.1 h with heq | h
  · exact absurd heq.symm hab
  · obtain ⟨c, hc, -⟩ := TransGen.head'_iff.1 h
    exact List.mem_iff_getElem?.1 (hmem (a, c) hc).1

include hg in
/-- A block that leads to another one is in a component. -/
theorem exists_component_of_leads {a b : BlockId} (hab : a ≠ b)
    (h : ReflTransGen (fun a b => (a, b) ∈ pairs) a b) :
    ∃ c ∈ g.components, a ∈ c.filterMap (nodes[·]?) := by
  obtain ⟨hsize, -, -⟩ := Schedule.edge_addPairs (DiGraph.size_empty _) hg
  obtain ⟨u, hu⟩ := exists_place hg hab h
  obtain ⟨hlt, -⟩ := List.getElem?_eq_some_iff.1 hu
  obtain ⟨c, hc, huc⟩ :=
    DiGraph.exists_component (Schedule.closed_of_addPairs hg) (hsize.symm ▸ hlt)
  exact ⟨c, hc, List.mem_filterMap.2 ⟨u, huc, hu⟩⟩

include hnodes

/-- The blocks at ascending places ascend. -/
theorem pairwise_filterMap_getElem? {c : List Nat} (hc : c.Pairwise (· < ·)) :
    (c.filterMap (nodes[·]?)).Pairwise (·.index < ·.index) := by
  refine hc.filterMap _ fun u v huv a ha b hb => ?_
  obtain ⟨hu, rfl⟩ := List.getElem?_eq_some_iff.1 ha
  obtain ⟨hv, rfl⟩ := List.getElem?_eq_some_iff.1 hb
  exact List.pairwise_iff_getElem.1 hnodes u v hu hv huv

include hg

/-- Places reach each other as their blocks do. -/
theorem mutual_iff {a b : BlockId} {u v : Nat} (ha : nodes[u]? = some a) (hb : nodes[v]? = some b) :
    g.Mutual u v ↔ ReflTransGen (fun a b => (a, b) ∈ pairs) a b ∧
      ReflTransGen (fun a b => (a, b) ∈ pairs) b a := by
  have hnodup := nodup_of_ascending hnodes
  have ha' := (idxOf?_eq_some_iff_getElem? hnodup).2 ha
  have hb' := (idxOf?_eq_some_iff_getElem? hnodup).2 hb
  have heq : v = u ↔ b = a := by
    constructor
    · rintro rfl
      rw [ha] at hb
      exact (Option.some.inj hb).symm
    · rintro rfl
      rw [ha'] at hb'
      exact (Option.some.inj hb').symm
  unfold DiGraph.Mutual
  simp only [Relation.reflTransGen_iff_eq_or_transGen]
  rw [Schedule.leads_iff_reaches hnodup hg ha' hb', Schedule.leads_iff_reaches hnodup hg hb' ha',
    heq, eq_comm (a := u), heq, eq_comm (a := a)]

/-- The blocks of a component lead to each other, and no other block belongs to them. -/
theorem mem_blocks_iff {c : List Nat} (hc : c ∈ g.components) {a : BlockId}
    (ha : a ∈ c.filterMap (nodes[·]?)) (b : BlockId) : b ∈ c.filterMap (nodes[·]?) ↔
      ReflTransGen (fun a b => (a, b) ∈ pairs) a b ∧
        ReflTransGen (fun a b => (a, b) ∈ pairs) b a := by
  have hcomponent := ((DiGraph.mem_components (Schedule.closed_of_addPairs hg)).1 hc).1
  obtain ⟨u, hu, hua⟩ := List.mem_filterMap.1 ha
  constructor
  · intro hb
    obtain ⟨v, hv, hvb⟩ := List.mem_filterMap.1 hb
    exact (mutual_iff hnodes hg hua hvb).1 ((hcomponent.mem_iff u hu v).1 hv)
  · intro hmutual
    by_cases hab : a = b
    · exact hab ▸ ha
    · obtain ⟨v, hvb⟩ := exists_place hg (Ne.symm hab) hmutual.2
      have huv := (mutual_iff hnodes hg hua hvb).2 hmutual
      exact List.mem_filterMap.2 ⟨v, (hcomponent.mem_iff u hu v).2 huv, hvb⟩

/-- The groups are the components of two or more nodes, read as blocks. -/
theorem isGroup_iff (group : List BlockId) : IsGroup (fun a b => (a, b) ∈ pairs) group ↔
    ∃ c ∈ g.components, 2 ≤ c.length ∧ c.filterMap (nodes[·]?) = group := by
  have hclosed := Schedule.closed_of_addPairs hg
  obtain ⟨hsize, -, -⟩ := Schedule.edge_addPairs (DiGraph.size_empty _) hg
  have hlength : ∀ c ∈ g.components, (c.filterMap (nodes[·]?)).length = c.length := by
    intro c hc
    refine List.filterMap_length_eq_length.2 fun u hu => ?_
    have hlt := ((DiGraph.mem_components hclosed).1 hc).2 u hu
    rw [hsize] at hlt
    rw [List.getElem?_eq_getElem hlt]
    rfl
  have hascend : ∀ c ∈ g.components,
      (c.filterMap (nodes[·]?)).Pairwise (·.index < ·.index) := fun c hc =>
    pairwise_filterMap_getElem? hnodes ((DiGraph.mem_components hclosed).1 hc).1.ascending
  constructor
  · intro h
    obtain ⟨a, b, rest, rfl⟩ : ∃ a b rest, group = a :: b :: rest := by
      have htwo := h.two_le
      match group, htwo with
      | a :: b :: rest, _ => exact ⟨a, b, rest, rfl⟩
    have hab : a ≠ b := by
      rintro rfl
      have := (List.pairwise_cons.1 h.ascending).1 a List.mem_cons_self
      omega
    have hmutual := (h.mem_iff a List.mem_cons_self b).1 (by simp)
    obtain ⟨c, hc, ha⟩ := exists_component_of_leads hg hab hmutual.1
    have hgroup : c.filterMap (nodes[·]?) = a :: b :: rest :=
      eq_of_ascending (hascend c hc) h.ascending fun x => by
        rw [mem_blocks_iff hnodes hg hc ha, h.mem_iff a List.mem_cons_self]
    refine ⟨c, hc, ?_, hgroup⟩
    rw [← hlength c hc, hgroup]
    exact h.two_le
  · rintro ⟨c, hc, htwo, rfl⟩
    exact ⟨by rw [hlength c hc]; exact htwo, hascend c hc, fun a ha b =>
      mem_blocks_iff hnodes hg hc ha b⟩

/-- Two blocks that lead to each other are in a group. -/
theorem exists_group {a b : BlockId} (hab : a ≠ b)
    (hto : ReflTransGen (fun a b => (a, b) ∈ pairs) a b)
    (hback : ReflTransGen (fun a b => (a, b) ∈ pairs) b a) :
    ∃ group, IsGroup (fun a b => (a, b) ∈ pairs) group ∧ a ∈ group := by
  obtain ⟨c, hc, ha⟩ := exists_component_of_leads hg hab hto
  have hb := (mem_blocks_iff hnodes hg hc ha b).2 ⟨hto, hback⟩
  refine ⟨_, (isGroup_iff hnodes hg _).2 ⟨c, hc, ?_, rfl⟩, ha⟩
  -- the two blocks have two places
  have htwo : 2 ≤ (c.filterMap (nodes[·]?)).length := by
    by_contra hshort
    exact hab (eq_of_mem_of_length_le (by omega) ha hb)
  exact htwo.trans (List.length_filterMap_le ..)

end Blocks

theorem precedes_eq_pairs (constraints : List Constraint) (retained : List InferredEdge) :
    (fun a b => (a, b) ∈ constraints.map (fun c => (c.before, c.after)) ++
      retained.map (fun e => (e.writer, e.reader))) = Precedes constraints retained := by
  funext a b
  exact propext precedes_iff_pairs

/-- Graph by graph, the reports are on the groups of the pairs behind the graph. -/
theorem reports_ofGraph (signals : SignalTable) (x : Extraction) {constraints : List Constraint}
    {retained : List InferredEdge} {nodes : List BlockId}
    (hnodes : nodes.Pairwise (·.index < ·.index)) {g : DiGraph}
    (hg : Schedule.addPairs nodes (.empty nodes.length)
      (constraints.map (fun c => (c.before, c.after)) ++
        retained.map (fun e => (e.writer, e.reader))) = .ok g) :
    Reports signals x constraints retained
      (CycleReport.ofGraph signals x constraints retained nodes g) := by
  have hclosed := Schedule.closed_of_addPairs hg
  have hmembers : ∀ group,
      (CycleReport.ofGroup signals x constraints retained group).members = group := by
    intro group
    unfold CycleReport.members CycleReport.ofGroup
    rw [List.map_map]
    exact List.map_id _
  refine ⟨fun group => ?_, ?_, ?_, ?_⟩
  · rw [← precedes_eq_pairs, isGroup_iff hnodes hg]
    unfold CycleReport.ofGraph
    rw [List.map_map]
    simp only [List.mem_map, List.mem_filter, decide_eq_true_eq, Function.comp_apply, hmembers,
      and_assoc]
  · unfold CycleReport.ofGraph
    rw [List.pairwise_map]
    refine ((DiGraph.components_ascend hclosed).filter _).imp_of_mem ?_
    rintro c c' hc - ⟨u, hu, hlt⟩
    simp only [hmembers]
    have hplace : u < nodes.length := by
      obtain ⟨hsize, -, -⟩ := Schedule.edge_addPairs (DiGraph.size_empty _) hg
      rw [← hsize]
      exact ((DiGraph.mem_components hclosed).1 (List.mem_of_mem_filter hc)).2 u hu
    refine ⟨nodes[u], List.mem_filterMap.2 ⟨u, hu, List.getElem?_eq_getElem hplace⟩, ?_⟩
    intro b' hb'
    obtain ⟨v, hv, hvb⟩ := List.mem_filterMap.1 hb'
    obtain ⟨hplace', rfl⟩ := List.getElem?_eq_some_iff.1 hvb
    exact List.pairwise_iff_getElem.1 hnodes u v hplace hplace' (hlt v hv)
  · intro c hc
    obtain ⟨component, -, rfl⟩ := List.mem_map.1 hc
    rw [hmembers]
    rfl
  · intro c hc
    obtain ⟨component, -, rfl⟩ := List.mem_map.1 hc
    rw [hmembers]
    rfl

/-! ## Refusals -/

open Classical in
/-- The inferred edges from writers to readers that no chain of constraints leads back from. -/
noncomputable def InferredEdge.retained (x : Extraction) (nets : NetMap)
    (constraints : List Constraint) : List InferredEdge :=
  (inferAll x nets).filter fun e => ¬ Chain constraints e.reader e.writer

namespace Schedule

theorem node_eq_error {nodes : List BlockId} {b : BlockId} {e : ScheduleError}
    (h : node nodes b = .error e) : e = .unknownBlock b := by
  unfold node at h
  split at h
  · cases h
  · cases h
    rfl

/-- Adding pairs fails for unknown blocks only. -/
theorem addPairs_eq_error {nodes : List BlockId} {pairs : List (BlockId × BlockId)} {g : DiGraph}
    {e : ScheduleError} (h : addPairs nodes g pairs = .error e) : ∃ b, e = .unknownBlock b := by
  induction pairs generalizing g with
  | nil => cases h
  | cons p pairs ih =>
    obtain ⟨a, b⟩ := p
    simp only [addPairs, List.foldlM_cons, bind, Except.bind] at h
    cases ha : node nodes a with
    | error e' =>
      rw [ha] at h
      cases h
      exact ⟨a, node_eq_error ha⟩
    | ok u =>
      cases hb : node nodes b with
      | error e' =>
        rw [ha, hb] at h
        cases h
        exact ⟨b, node_eq_error hb⟩
      | ok v =>
        rw [ha, hb] at h
        exact ih h

/-- Marking fails for unknown blocks only. -/
theorem markSequential_eq_error {nodes : List BlockId} {rows : Array BitSet}
    {edges : List InferredEdge} {e : ScheduleError}
    (h : markSequential nodes rows edges = .error e) : ∃ b, e = .unknownBlock b := by
  induction edges with
  | nil => cases h
  | cons edge edges ih =>
    simp only [markSequential, isSequential, List.mapM_cons, bind, Except.bind] at h ih
    cases hr : node nodes edge.reader with
    | error e' =>
      rw [hr] at h
      cases h
      exact ⟨edge.reader, node_eq_error hr⟩
    | ok r =>
      cases hw : node nodes edge.writer with
      | error e' =>
        rw [hr, hw] at h
        cases h
        exact ⟨edge.writer, node_eq_error hw⟩
      | ok w =>
        rw [hr, hw] at h
        simp only [pure, Except.pure] at h ih
        split at h
        · next e' hrest =>
          cases h
          exact ih hrest
        · cases h

end Schedule

/-- How a refusal comes about: a block is unknown, the constraints have no levels, or the constraints
with the retained edges have none. -/
theorem schedule_eq_error {signals : SignalTable} {x : Extraction} {nets : NetMap}
    {constraints : List Constraint} {e : ScheduleError}
    (h : schedule signals x nets constraints = .error e) {nodes : List BlockId}
    (hnodes : nodes = ascendingBy BlockId.index x.analyzed.keys) :
    (∃ b, e = .unknownBlock b) ∨
    (∃ explicit, Schedule.addPairs nodes (.empty nodes.length)
        (constraints.map fun c => (c.before, c.after)) = .ok explicit ∧
      explicit.levels = none ∧
      e = .constraintCycle (CycleReport.ofGraph signals x constraints [] nodes explicit)) ∨
    ∃ explicit full, Schedule.Graphs nodes (InferredEdge.inferAll x nets) constraints explicit full ∧
      explicit.levels.isSome ∧ full.levels = none ∧
      e = .combinationalCycle (CycleReport.ofGraph signals x constraints
        ((InferredEdge.inferAll x nets).filter fun e => !Schedule.registered nodes explicit e)
        nodes full) := by
  subst hnodes
  simp only [schedule, bind, Except.bind] at h
  split at h
  · next e' hexplicit =>
    cases h
    exact .inl (Schedule.addPairs_eq_error hexplicit)
  · next explicit hexplicit =>
    split at h
    · next hlevels =>
      cases h
      exact .inr (.inl ⟨explicit, hexplicit, Option.isNone_iff_eq_none.1 hlevels, rfl⟩)
    · next hlevels =>
      have hsome : explicit.levels.isSome := by
        cases hl : explicit.levels with
        | none =>
          rw [hl] at hlevels
          exact absurd rfl hlevels
        | some levels => rfl
      split at h
      · next e' hmarked =>
        cases h
        exact .inl (Schedule.markSequential_eq_error hmarked)
      · next marked hmarked =>
        obtain ⟨hends, rfl⟩ := Schedule.markSequential_eq_ok hmarked
        rw [Schedule.filter_marked (fun e => !Schedule.registered _ explicit e) fun _ => rfl] at h
        split at h
        · next e' hfull =>
          cases h
          exact .inl (Schedule.addPairs_eq_error hfull)
        · next full hfull =>
          split at h
          · next hnone =>
            cases h
            refine .inr (.inr ⟨explicit, full, ⟨hexplicit, fun e he => ?_, hfull⟩, hsome, hnone,
              rfl⟩)
            obtain ⟨r, w, hr, hw⟩ := hends e he
            exact ⟨List.isSome_idxOf?.1 (by rw [hw]; rfl), List.isSome_idxOf?.1 (by rw [hr]; rfl)⟩
          · cases h

/-- The edges that the table of the constraints leaves are those that no chain of constraints leads
back from. -/
theorem Schedule.Graphs.retained_eq {nodes : List BlockId} (hnodup : nodes.Nodup) {x : Extraction}
    {nets : NetMap} {constraints : List Constraint} {explicit full : DiGraph}
    (h : Graphs nodes (InferredEdge.inferAll x nets) constraints explicit full) :
    ((InferredEdge.inferAll x nets).filter fun e => !registered nodes explicit e) =
      InferredEdge.retained x nets constraints := by
  unfold InferredEdge.retained
  refine List.filter_congr fun e he => ?_
  have hregistered := h.registered_iff hnodup he
  by_cases hchain : Chain constraints e.reader e.writer
  · simp [hregistered.2 hchain, hchain]
  · simp [Bool.eq_false_iff.2 (mt hregistered.1 hchain), hchain]

/-- A group of blocks that precede each other holds both ends of a retained edge, when the
constraints alone have no cycle. -/
theorem IsGroup.exists_retained {constraints : List Constraint} {retained : List InferredEdge}
    {group : List BlockId} (h : IsGroup (Precedes constraints retained) group)
    (hacyclic : ¬ ∃ b, Chain constraints b b) :
    ∃ e ∈ retained, e.writer ∈ group ∧ e.reader ∈ group := by
  apply Classical.byContradiction
  intro hnone
  -- then all steps inside the group are constraints
  have hchain : ∀ a ∈ group, ∀ b, ReflTransGen (Precedes constraints retained) a b → b ∈ group →
      ReflTransGen (fun a b => ⟨a, b⟩ ∈ constraints) a b := by
    intro a ha b hab hb
    induction hab with
    | refl => exact .refl
    | @tail b c hab hbc ih =>
      have hca := ((h.mem_iff a ha c).1 hb).2
      have hb' : b ∈ group := (h.mem_iff a ha b).2 ⟨hab, .head hbc hca⟩
      rcases hbc with hconstraint | ⟨e, he, rfl, rfl⟩
      · exact (ih hb').tail hconstraint
      · exact absurd ⟨e, he, hb', hb⟩ hnone
  obtain ⟨a, b, ha, hb, hab⟩ : ∃ a b, a ∈ group ∧ b ∈ group ∧ b ≠ a := by
    have htwo := h.two_le
    match group, htwo with
    | a :: b :: rest, _ =>
      refine ⟨a, b, by simp, by simp, ?_⟩
      rintro rfl
      have := (List.pairwise_cons.1 h.ascending).1 b List.mem_cons_self
      omega
  obtain ⟨hto, hback⟩ := (h.mem_iff a ha b).1 hb
  rcases Relation.reflTransGen_iff_eq_or_transGen.1 (hchain a ha b hto hb) with heq | hfirst
  · exact hab heq
  · exact hacyclic ⟨a, hfirst.trans_left (hchain b hb a hback ha)⟩

/-- **Reported cycles.**  A refusal for a constraint cycle reports exactly on the groups of two or
more blocks that the constraints put before each other, and a refusal for a combinational cycle
exactly on those that constraints and retained edges put before each other; there each report lists
an inferred edge. -/
theorem reported_cycles (signals : SignalTable) (x : Extraction) (nets : NetMap)
    (constraints : List Constraint) (cycles : List CycleReport) :
    (schedule signals x nets constraints = .error (.constraintCycle cycles) →
      Reports signals x constraints [] cycles) ∧
    (schedule signals x nets constraints = .error (.combinationalCycle cycles) →
      Reports signals x constraints (InferredEdge.retained x nets constraints) cycles ∧
      ∀ c ∈ cycles, ∃ writer reader net members sites,
        CycleEdge.inferred writer reader net members sites ∈ c.edges) := by
  obtain ⟨nodes, hnodes⟩ : ∃ nodes, nodes = ascendingBy BlockId.index x.analyzed.keys := ⟨_, rfl⟩
  have hascend : nodes.Pairwise (·.index < ·.index) :=
    hnodes ▸ pairwise_ascendingBy BlockId.index x.analyzed.keys
  have hnodup := nodup_of_ascending hascend
  constructor
  · intro h
    rcases schedule_eq_error h hnodes with ⟨b, he⟩ | ⟨explicit, hexplicit, -, he⟩ |
        ⟨explicit, full, -, -, -, he⟩
    · cases he
    · obtain rfl := ScheduleError.constraintCycle.inj he
      refine reports_ofGraph signals x hascend ?_
      rw [List.map_nil, List.append_nil]
      exact hexplicit
    · cases he
  · intro h
    rcases schedule_eq_error h hnodes with ⟨b, he⟩ | ⟨explicit, -, -, he⟩ |
        ⟨explicit, full, hgraphs, hlevels, -, he⟩
    · cases he
    · cases he
    · obtain rfl := ScheduleError.combinationalCycle.inj he
      have hfull := Schedule.addPairs_append hgraphs.explicit_eq hgraphs.full_eq
      rw [hgraphs.retained_eq hnodup] at hfull ⊢
      have hreports := reports_ofGraph signals x hascend hfull
      refine ⟨hreports, fun c hc => ?_⟩
      have hgroup := (hreports.mem_groups c.members).1 (List.mem_map_of_mem hc)
      obtain ⟨e, he, hw, hr⟩ := hgroup.exists_retained ((hgraphs.explicit_levels hnodup).1 hlevels)
      rw [hreports.edges c hc]
      refine ⟨_, _, _, _, _, List.mem_append_right _ (List.mem_map.2 ⟨e, ?_, rfl⟩)⟩
      exact List.mem_filter.2 ⟨he, by simp [hw, hr]⟩

/-- The two blocks of `Design.feedback` form a loop through their nets, and opposite constraints
between them form one as well. -/
theorem feedback_reported : ∃ x nets cycles cycles', extract Design.feedback.liveBlocks = .ok x ∧
    resolve Design.feedback.signals [] x ⟨false, Hierarchy.top⟩ = .ok nets ∧
    (schedule Design.feedback.signals x nets [] = .error (.combinationalCycle cycles) ∧
      cycles.map CycleReport.members = [[⟨0⟩, ⟨1⟩]] ∧
      Reports Design.feedback.signals x [] (InferredEdge.retained x nets []) cycles) ∧
    schedule Design.feedback.signals x nets [⟨⟨0⟩, ⟨1⟩⟩, ⟨⟨1⟩, ⟨0⟩⟩] =
        .error (.constraintCycle cycles') ∧
      cycles'.map CycleReport.members = [[⟨0⟩, ⟨1⟩]] ∧
      Reports Design.feedback.signals x [⟨⟨0⟩, ⟨1⟩⟩, ⟨⟨1⟩, ⟨0⟩⟩] [] cycles' := by
  have hcheck : ((extract Design.feedback.liveBlocks).toOption.any fun x =>
      (resolve Design.feedback.signals [] x ⟨false, Hierarchy.top⟩).toOption.any fun nets =>
        (match schedule Design.feedback.signals x nets [] with
          | .error (.combinationalCycle cycles) =>
            decide (cycles.map CycleReport.members = [[⟨0⟩, ⟨1⟩]])
          | _ => false) &&
        (match schedule Design.feedback.signals x nets [⟨⟨0⟩, ⟨1⟩⟩, ⟨⟨1⟩, ⟨0⟩⟩] with
          | .error (.constraintCycle cycles) =>
            decide (cycles.map CycleReport.members = [[⟨0⟩, ⟨1⟩]])
          | _ => false)) = true := by
    decide +kernel
  obtain ⟨x, hx, hcheck⟩ := Design.exists_ok_of_any hcheck
  obtain ⟨nets, hnets, hcheck⟩ := Design.exists_ok_of_any hcheck
  obtain ⟨hloop, hopposite⟩ := Bool.and_eq_true_iff.1 hcheck
  split at hloop
  · next cycles hs =>
    split at hopposite
    · next cycles' hs' =>
      exact ⟨x, nets, cycles, cycles', hx, hnets,
        ⟨hs, of_decide_eq_true hloop, ((reported_cycles _ x nets _ cycles).2 hs).1⟩,
        hs', of_decide_eq_true hopposite, (reported_cycles _ x nets _ cycles').1 hs'⟩
    · cases hopposite
  · cases hloop

end Cyclewise
