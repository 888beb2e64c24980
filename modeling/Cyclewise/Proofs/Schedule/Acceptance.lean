import Cyclewise.Block.Stock
import Cyclewise.Proofs.Elaboration
import Cyclewise.Proofs.Graph.Acyclic
import Cyclewise.Proofs.Schedule.Basic

/-!
# Which schedules exist

Blocks have a schedule exactly when neither the constraints alone nor the constraints and the
retained edges together have a cycle, and the refusal tells which of the two it is
(`schedule_exact`).  The inferred edges are known before that: they join the writers of a net to
its other readers, and constraints decide which of them are sequential (`Classifies`).

Each of the two checks asks whether a graph has levels.  The graph of a list of pairs has levels
exactly when the pairs do not lead from a block back to it (`Schedule.levels_isSome_iff_pairs`), and
the second graph is the graph of all pairs (`Schedule.addPairs_append`).
-/

namespace Cyclewise

/-! ## The order of the inferred edges -/

namespace InferredEdge

/-- Edges by net, then by writer, then by reader. -/
def Before (e f : InferredEdge) : Prop :=
  e.net.index < f.net.index ∨ e.net = f.net ∧
    (e.writer.index < f.writer.index ∨ e.writer = f.writer ∧ e.reader.index < f.reader.index)

theorem pairwise_inferAll {x : Extraction} {nets : NetMap}
    (hwriters : ∀ n, (nets.writers n).Pairwise (·.index < ·.index))
    (hreaders : ∀ n, (nets.readers n).Pairwise (·.index < ·.index)) :
    (inferAll x nets).Pairwise Before := by
  have hids : nets.ids.Pairwise (·.index < ·.index) := by
    unfold NetMap.ids
    rw [List.pairwise_map]
    exact List.pairwise_lt_range
  unfold inferAll
  refine List.pairwise_flatMap.2 ⟨fun n _ => ?_, hids.imp ?_⟩
  · refine List.pairwise_flatMap.2 ⟨fun w _ => ?_, (hwriters n).imp ?_⟩
    · rw [List.pairwise_map]
      exact ((hreaders n).filter _).imp fun {r r'} hlt => .inr ⟨rfl, .inr ⟨rfl, hlt⟩⟩
    · intro w w' hlt e he f hf
      obtain ⟨r, -, rfl⟩ := List.mem_map.1 he
      obtain ⟨r', -, rfl⟩ := List.mem_map.1 hf
      exact .inr ⟨rfl, .inl hlt⟩
  · intro n n' hlt e he f hf
    obtain ⟨w, -, he⟩ := List.mem_flatMap.1 he
    obtain ⟨w', -, hf⟩ := List.mem_flatMap.1 hf
    obtain ⟨r, -, rfl⟩ := List.mem_map.1 he
    obtain ⟨r', -, rfl⟩ := List.mem_map.1 hf
    exact .inl hlt

end InferredEdge

/-! ## The graph of a list of pairs -/

namespace Schedule

variable {nodes : List BlockId} {pairs : List (BlockId × BlockId)} {g : DiGraph}

theorem exists_node {b : BlockId} (hb : b ∈ nodes) : ∃ i, node nodes b = .ok i := by
  obtain ⟨i, hi⟩ := Option.isSome_iff_exists.1 (List.isSome_idxOf?.2 hb)
  exact ⟨i, node_eq_ok.2 hi⟩

/-- Pairs of nodes can be added. -/
theorem exists_addPairs (h : ∀ p ∈ pairs, p.1 ∈ nodes ∧ p.2 ∈ nodes) (g : DiGraph) :
    ∃ g', addPairs nodes g pairs = .ok g' := by
  induction pairs generalizing g with
  | nil => exact ⟨g, rfl⟩
  | cons p pairs ih =>
    obtain ⟨hbefore, hafter⟩ := h p List.mem_cons_self
    obtain ⟨u, hu⟩ := exists_node hbefore
    obtain ⟨v, hv⟩ := exists_node hafter
    obtain ⟨g', hg'⟩ := ih (fun q hq => h q (List.mem_cons_of_mem _ hq)) (g.addEdge u v)
    refine ⟨g', ?_⟩
    simp only [addPairs, List.foldlM_cons, bind, Except.bind, hu, hv]
    exact hg'

/-- The graph of a list of pairs has levels unless the pairs lead from a block back to it. -/
theorem levels_isSome_iff_pairs (hnodup : nodes.Nodup)
    (hg : addPairs nodes (.empty nodes.length) pairs = .ok g) :
    g.levels.isSome ↔ ¬ ∃ b, Relation.TransGen (fun a b => (a, b) ∈ pairs) b b := by
  obtain ⟨hsize, hmem, -⟩ := edge_addPairs (DiGraph.size_empty _) hg
  rw [DiGraph.levels_isSome_iff (closed_of_addPairs hg), not_exists]
  constructor
  · intro hacyclic b hb
    obtain ⟨c, hc, -⟩ := Relation.TransGen.head'_iff.1 hb
    obtain ⟨u, hu⟩ := Option.isSome_iff_exists.1 (List.isSome_idxOf?.2 (hmem (b, c) hc).1)
    exact hacyclic u ((leads_iff_reaches hnodup hg hu hu).2 hb)
  · intro h u hu
    obtain ⟨v, huv, -⟩ := Relation.TransGen.head'_iff.1 hu
    have hlt : u < nodes.length := hsize ▸ huv.lt_size
    have hplace : nodes.idxOf? nodes[u] = some u :=
      (idxOf?_eq_some_iff_getElem? hnodup).2 (List.getElem?_eq_getElem hlt)
    exact h nodes[u] ((leads_iff_reaches hnodup hg hplace hplace).1 hu)

/-- Edges between nodes can be marked. -/
theorem exists_markSequential {edges : List InferredEdge}
    (h : ∀ e ∈ edges, e.writer ∈ nodes ∧ e.reader ∈ nodes) (rows : Array BitSet) :
    ∃ marked, markSequential nodes rows edges = .ok marked := by
  induction edges with
  | nil => exact ⟨[], rfl⟩
  | cons e edges ih =>
    obtain ⟨hwriter, hreader⟩ := h e List.mem_cons_self
    obtain ⟨w, hw⟩ := exists_node hwriter
    obtain ⟨r, hr⟩ := exists_node hreader
    obtain ⟨marked, hmarked⟩ := ih fun f hf => h f (List.mem_cons_of_mem _ hf)
    unfold markSequential at hmarked ⊢
    rw [List.mapM_cons, hmarked]
    simp only [isSequential, bind, Except.bind, hw, hr]
    exact ⟨_, rfl⟩

/-! ## The two graphs -/

/-- The graph of the constraints, and the graph of the constraints and the retained edges. -/
structure Graphs (nodes : List BlockId) (edges : List InferredEdge) (constraints : List Constraint)
    (explicit full : DiGraph) : Prop where
  explicit_eq : addPairs nodes (.empty nodes.length)
    (constraints.map fun c => (c.before, c.after)) = .ok explicit
  ends : ∀ e ∈ edges, e.writer ∈ nodes ∧ e.reader ∈ nodes
  full_eq : addPairs nodes explicit ((edges.filter fun e => !registered nodes explicit e).map
    fun e => (e.writer, e.reader)) = .ok full

variable {edges : List InferredEdge} {constraints : List Constraint}

theorem exists_graphs (hends : ∀ e ∈ edges, e.writer ∈ nodes ∧ e.reader ∈ nodes)
    (hconstraints : ∀ c ∈ constraints, c.before ∈ nodes ∧ c.after ∈ nodes) :
    ∃ explicit full, Graphs nodes edges constraints explicit full := by
  have hpairs : ∀ p ∈ constraints.map (fun c => (c.before, c.after)),
      p.1 ∈ nodes ∧ p.2 ∈ nodes := by
    intro p hp
    obtain ⟨c, hc, rfl⟩ := List.mem_map.1 hp
    exact hconstraints c hc
  obtain ⟨explicit, hexplicit⟩ := exists_addPairs hpairs (.empty nodes.length)
  have hpairs' : ∀ p ∈ (edges.filter fun e => !registered nodes explicit e).map
      (fun e => (e.writer, e.reader)), p.1 ∈ nodes ∧ p.2 ∈ nodes := by
    intro p hp
    obtain ⟨e, he, rfl⟩ := List.mem_map.1 hp
    exact hends e (List.mem_of_mem_filter he)
  obtain ⟨full, hfull⟩ := exists_addPairs hpairs' explicit
  exact ⟨explicit, full, hexplicit, hends, hfull⟩

end Schedule

/-- A constraint or a retained edge puts the first block before the second one. -/
def Precedes (constraints : List Constraint) (retained : List InferredEdge) (a b : BlockId) :
    Prop :=
  ⟨a, b⟩ ∈ constraints ∨ ∃ e ∈ retained, e.writer = a ∧ e.reader = b

theorem precedes_iff_pairs {constraints : List Constraint} {retained : List InferredEdge}
    {a b : BlockId} :
    (a, b) ∈ constraints.map (fun c => (c.before, c.after)) ++
        retained.map (fun e => (e.writer, e.reader)) ↔ Precedes constraints retained a b := by
  unfold Precedes
  rw [List.mem_append, List.mem_map, List.mem_map]
  refine or_congr ⟨?_, fun h => ⟨_, h, rfl⟩⟩ (exists_congr fun e => and_congr_right fun _ => ?_)
  · rintro ⟨c, hc, h⟩
    obtain ⟨rfl, rfl⟩ := Prod.mk.inj h
    exact hc
  · exact Prod.mk_inj

namespace Schedule.Graphs

variable {nodes : List BlockId} {edges : List InferredEdge} {constraints : List Constraint}
  {explicit full : DiGraph} (hnodup : nodes.Nodup)
  (h : Graphs nodes edges constraints explicit full)

include hnodup h

theorem explicit_levels : explicit.levels.isSome ↔ ¬ ∃ b, Chain constraints b b := by
  rw [levels_isSome_iff_pairs hnodup h.explicit_eq]
  simp only [chain_iff_pairs]

theorem full_levels : full.levels.isSome ↔ ¬ ∃ b, Relation.TransGen
    (Precedes constraints (edges.filter fun e => !registered nodes explicit e)) b b := by
  rw [levels_isSome_iff_pairs hnodup (addPairs_append h.explicit_eq h.full_eq)]
  simp only [precedes_iff_pairs]

theorem registered_iff {e : InferredEdge} (he : e ∈ edges) :
    registered nodes explicit e = true ↔ Chain constraints e.reader e.writer := by
  obtain ⟨hwriter, hreader⟩ := h.ends e he
  obtain ⟨w, hw⟩ := Option.isSome_iff_exists.1 (List.isSome_idxOf?.2 hwriter)
  obtain ⟨r, hr⟩ := Option.isSome_iff_exists.1 (List.isSome_idxOf?.2 hreader)
  exact registered_iff_chain hnodup h.explicit_eq hr hw

end Schedule.Graphs

/-- With the two graphs at hand, the outcome depends on which of them have levels. -/
theorem schedule_outcome (reported : SignalTable) {x : Extraction} {nets : NetMap}
    {constraints : List Constraint} {nodes : List BlockId}
    (hnodes : nodes = ascendingBy BlockId.index x.analyzed.keys) {explicit full : DiGraph}
    (h : Schedule.Graphs nodes (InferredEdge.inferAll x nets) constraints explicit full) :
    (explicit.levels.isSome = false ∧
      ∃ cycles, schedule reported x nets constraints = .error (.constraintCycle cycles)) ∨
    (explicit.levels.isSome = true ∧ full.levels.isSome = false ∧
      ∃ cycles, schedule reported x nets constraints = .error (.combinationalCycle cycles)) ∨
    (explicit.levels.isSome = true ∧ full.levels.isSome = true ∧
      ∃ s, schedule reported x nets constraints = .ok s ∧
        s.retained = (InferredEdge.inferAll x nets).filter
          (fun e => !Schedule.registered nodes explicit e) ∧
        s.sequential =
          (InferredEdge.inferAll x nets).filter (Schedule.registered nodes explicit)) := by
  obtain ⟨marked, hmarked⟩ := Schedule.exists_markSequential h.ends explicit.reach
  obtain ⟨-, rfl⟩ := Schedule.markSequential_eq_ok hmarked
  subst hnodes
  unfold schedule
  simp only [bind, Except.bind, h.explicit_eq, hmarked]
  rw [Schedule.filter_marked (fun e => !Schedule.registered _ explicit e) fun _ => rfl,
    Schedule.filter_marked (Schedule.registered _ explicit) fun _ => rfl]
  simp only [h.full_eq]
  cases explicit.levels with
  | none => exact .inl ⟨rfl, _, rfl⟩
  | some _ =>
    cases full.levels with
    | none => exact .inr (.inl ⟨rfl, rfl, _, rfl⟩)
    | some levels => exact .inr (.inr ⟨rfl, rfl, _, rfl, rfl, rfl⟩)

/-! ## Classified edges -/

/-- Two lists hold the edges from the writers of nets to their other readers, each edge once and by
ascending net, writer and reader: `sequential` those whose reader constraints lead to their writer,
and `retained` the others. -/
structure Classifies (nets : NetMap) (constraints : List Constraint)
    (retained sequential : List InferredEdge) : Prop where
  retained_ascend : retained.Pairwise InferredEdge.Before
  sequential_ascend : sequential.Pairwise InferredEdge.Before
  mem_retained : ∀ w r n, (∃ e ∈ retained, e.writer = w ∧ e.reader = r ∧ e.net = n) ↔
    w ∈ nets.writers n ∧ r ∈ nets.readers n ∧ w ≠ r ∧ ¬ Chain constraints r w
  mem_sequential : ∀ w r n, (∃ e ∈ sequential, e.writer = w ∧ e.reader = r ∧ e.net = n) ↔
    w ∈ nets.writers n ∧ r ∈ nets.readers n ∧ w ≠ r ∧ Chain constraints r w

namespace Resolves

variable {signals : SignalTable} {connections : List Connection} {x : Extraction} {nets : NetMap}
  (h : Resolves signals connections x nets)

include h

/-- The inferred edges join analysed blocks. -/
theorem ends_inferAll {e : InferredEdge} (he : e ∈ InferredEdge.inferAll x nets) :
    e.writer ∈ x.analyzed.keys ∧ e.reader ∈ x.analyzed.keys :=
  (InferredEdge.ends he).imp h.writer_mem_keys h.reader_mem_keys

/-- The inferred edges with a property are those between the writers of a net and its other readers
that have it. -/
theorem exists_inferred_iff {p : InferredEdge → Bool} {q : BlockId → BlockId → Prop}
    (hp : ∀ e ∈ InferredEdge.inferAll x nets, p e = true ↔ q e.writer e.reader) (w r : BlockId)
    (n : NetId) :
    (∃ e ∈ (InferredEdge.inferAll x nets).filter p, e.writer = w ∧ e.reader = r ∧ e.net = n) ↔
      w ∈ nets.writers n ∧ r ∈ nets.readers n ∧ w ≠ r ∧ q w r := by
  constructor
  · rintro ⟨e, he, rfl, rfl, rfl⟩
    obtain ⟨hmem, hpe⟩ := List.mem_filter.1 he
    have hq := (hp e hmem).1 hpe
    obtain ⟨n, w, r, -, hw, hr, hne, rfl⟩ := InferredEdge.mem_inferAll.1 hmem
    exact ⟨hw, hr, hne, hq⟩
  · rintro ⟨hw, hr, hne, hq⟩
    obtain ⟨access, -, s, -, hs⟩ := h.mem_writers.1 hw
    have hmem : InferredEdge.infer x nets n w r ∈ InferredEdge.inferAll x nets :=
      InferredEdge.mem_inferAll.2 ⟨n, w, r, h.index_lt_size hs, hw, hr, hne, rfl⟩
    exact ⟨_, List.mem_filter.2 ⟨hmem, (hp _ hmem).2 hq⟩, rfl, rfl, rfl⟩

/-- Splitting the inferred edges by chains of constraints classifies them. -/
theorem classifies {constraints : List Constraint} {p : InferredEdge → Bool}
    (hp : ∀ e ∈ InferredEdge.inferAll x nets,
      p e = true ↔ Chain constraints e.reader e.writer) :
    Classifies nets constraints ((InferredEdge.inferAll x nets).filter fun e => !p e)
      ((InferredEdge.inferAll x nets).filter p) := by
  have hascend := InferredEdge.pairwise_inferAll (x := x) h.writers_ascend h.readers_ascend
  have hp' : ∀ e ∈ InferredEdge.inferAll x nets,
      (!p e) = true ↔ ¬ Chain constraints e.reader e.writer := by
    intro e he
    rw [← hp e he, Bool.not_eq_true', Bool.not_eq_true]
  exact ⟨hascend.filter _, hascend.filter _,
    h.exists_inferred_iff (q := fun w r => ¬ Chain constraints r w) hp',
    h.exists_inferred_iff (q := fun w r => Chain constraints r w) hp⟩

end Resolves

/-! ## Acceptance -/

/-- **Acceptance.**  Over analysed blocks, scheduling is refused for a constraint cycle exactly when
the constraints have a cycle.  Otherwise the inferred edges are classified, and scheduling is
refused for a combinational cycle when the constraints and the retained edges have a cycle, and
succeeds with these edges when they have none. -/
theorem schedule_exact {signals : SignalTable} {connections : List Connection} {x : Extraction}
    {options : ResolveOptions} {nets : NetMap}
    (hnets : resolve signals connections x options = .ok nets) {constraints : List Constraint}
    (hconstraints : ∀ c ∈ constraints, c.before ∈ x.analyzed.keys ∧ c.after ∈ x.analyzed.keys)
    (reported : SignalTable) :
    ((∃ cycles, schedule reported x nets constraints = .error (.constraintCycle cycles)) ↔
      ∃ b, Chain constraints b b) ∧
    ((¬ ∃ b, Chain constraints b b) →
      ∃ retained sequential, Classifies nets constraints retained sequential ∧
        ((∃ cycles, schedule reported x nets constraints = .error (.combinationalCycle cycles)) ↔
          ∃ b, Relation.TransGen (Precedes constraints retained) b b) ∧
        ((∃ s, schedule reported x nets constraints = .ok s ∧ s.retained = retained ∧
            s.sequential = sequential) ↔
          ¬ ∃ b, Relation.TransGen (Precedes constraints retained) b b)) := by
  have h := resolve_eq_ok hnets
  obtain ⟨nodes, hnodes⟩ : ∃ nodes, nodes = ascendingBy BlockId.index x.analyzed.keys := ⟨_, rfl⟩
  have hmem : ∀ {b}, b ∈ x.analyzed.keys → b ∈ nodes := fun hb =>
    hnodes ▸ mem_ascendingBy_block.2 hb
  have hnodup : nodes.Nodup := hnodes ▸ (perm_nodes x).symm.nodup x.analyzed.nodup_keys
  obtain ⟨explicit, full, hgraphs⟩ := Schedule.exists_graphs
    (fun e he => (h.ends_inferAll he).imp hmem hmem)
    (fun c hc => (hconstraints c hc).imp hmem hmem)
  have hclass := h.classifies fun e he => hgraphs.registered_iff hnodup he
  have hexplicit := hgraphs.explicit_levels hnodup
  have hfull := hgraphs.full_levels hnodup
  rcases schedule_outcome reported hnodes hgraphs with
    ⟨hlevels, cycles, hs⟩ | ⟨hlevels, hlevels', cycles, hs⟩ |
      ⟨hlevels, hlevels', s, hs, hretained, hsequential⟩
  · rw [hlevels] at hexplicit
    have hcycle := not_not.1 (mt hexplicit.2 Bool.false_ne_true)
    exact ⟨⟨fun _ => hcycle, fun _ => ⟨cycles, hs⟩⟩, fun hnot => absurd hcycle hnot⟩
  · rw [hlevels'] at hfull
    have hcycle := not_not.1 (mt hfull.2 Bool.false_ne_true)
    rw [hs]
    refine ⟨⟨fun ⟨_, hne⟩ => (by cases hne), fun h => absurd h (hexplicit.1 hlevels)⟩, fun _ => ?_⟩
    refine ⟨_, _, hclass, ⟨fun _ => hcycle, fun _ => ⟨cycles, rfl⟩⟩, ?_⟩
    exact ⟨fun ⟨_, hne, _⟩ => (by cases hne), fun hnot => absurd hcycle hnot⟩
  · have hacyclic := hfull.1 hlevels'
    rw [hs]
    refine ⟨⟨fun ⟨_, hne⟩ => (by cases hne), fun h => absurd h (hexplicit.1 hlevels)⟩, fun _ => ?_⟩
    refine ⟨_, _, hclass, ⟨fun ⟨_, hne⟩ => (by cases hne), fun h => absurd h hacyclic⟩, ?_⟩
    exact ⟨fun _ => hacyclic, fun _ => ⟨s, rfl, hretained, hsequential⟩⟩

/-- Two blocks that read what the other one writes. -/
def Design.feedback : Design Unit :=
  ofEdits "top"
    [.declare "a" .wire "Bits8" Hierarchy.top, .declare "b" .wire "Bits8" Hierarchy.top,
      .registerBlock Hierarchy.top (.copy "back" ⟨1⟩ ⟨0⟩),
      .registerBlock Hierarchy.top (.copy "forth" ⟨0⟩ ⟨1⟩)]

/-- Block 0 writes net 0 and block 1 net 1, and each reads the net of the other one. -/
theorem exists_feedback_nets : ∃ x nets, extract Design.feedback.liveBlocks = .ok x ∧
    resolve Design.feedback.signals [] x ⟨false, Hierarchy.top⟩ = .ok nets ∧
    x.analyzed.keys = [⟨0⟩, ⟨1⟩] ∧
    (⟨0⟩ ∈ nets.writers ⟨0⟩ ∧ ⟨1⟩ ∈ nets.readers ⟨0⟩) ∧
    (⟨1⟩ ∈ nets.writers ⟨1⟩ ∧ ⟨0⟩ ∈ nets.readers ⟨1⟩) ∧
    ∃ s, schedule ∅ x nets [⟨⟨1⟩, ⟨0⟩⟩] = .ok s := by
  have hcheck : ((extract Design.feedback.liveBlocks).toOption.any fun x =>
      (resolve Design.feedback.signals [] x ⟨false, Hierarchy.top⟩).toOption.any fun nets =>
        decide (x.analyzed.keys = [⟨0⟩, ⟨1⟩]) &&
        decide (⟨0⟩ ∈ nets.writers ⟨0⟩ ∧ ⟨1⟩ ∈ nets.readers ⟨0⟩) &&
        decide (⟨1⟩ ∈ nets.writers ⟨1⟩ ∧ ⟨0⟩ ∈ nets.readers ⟨1⟩) &&
        (schedule ∅ x nets [⟨⟨1⟩, ⟨0⟩⟩]).toOption.any fun _ => true) = true := by
    decide +kernel
  obtain ⟨x, hx, hcheck⟩ := Design.exists_ok_of_any hcheck
  obtain ⟨nets, hnets, hcheck⟩ := Design.exists_ok_of_any hcheck
  simp only [Bool.and_eq_true, decide_eq_true_eq] at hcheck
  obtain ⟨⟨⟨hkeys, hforth⟩, hback⟩, hs⟩ := hcheck
  obtain ⟨s, hs, -⟩ := Design.exists_ok_of_any hs
  exact ⟨x, nets, hx, hnets, hkeys, hforth, hback, s, hs⟩

/-- Without constraints the two blocks form a loop, one constraint makes a register of it, and
opposite constraints contradict each other. -/
theorem feedback_schedule : ∃ x nets, extract Design.feedback.liveBlocks = .ok x ∧
    resolve Design.feedback.signals [] x ⟨false, Hierarchy.top⟩ = .ok nets ∧
    (∃ cycles, schedule ∅ x nets [] = .error (.combinationalCycle cycles)) ∧
    (∃ s, schedule ∅ x nets [⟨⟨1⟩, ⟨0⟩⟩] = .ok s ∧
      (∃ e ∈ s.retained, e.writer = ⟨1⟩ ∧ e.reader = ⟨0⟩) ∧
      ∃ e ∈ s.sequential, e.writer = ⟨0⟩ ∧ e.reader = ⟨1⟩) ∧
    ∃ cycles, schedule ∅ x nets [⟨⟨0⟩, ⟨1⟩⟩, ⟨⟨1⟩, ⟨0⟩⟩] = .error (.constraintCycle cycles) := by
  obtain ⟨x, nets, hx, hnets, hkeys, ⟨hwriter₀, hreader₀⟩, ⟨hwriter₁, hreader₁⟩, s, hs⟩ :=
    exists_feedback_nets
  have hunconstrained : ∀ c ∈ ([] : List Constraint),
      c.before ∈ x.analyzed.keys ∧ c.after ∈ x.analyzed.keys := by simp
  have hordered : ∀ c ∈ [(⟨⟨1⟩, ⟨0⟩⟩ : Constraint)],
      c.before ∈ x.analyzed.keys ∧ c.after ∈ x.analyzed.keys := by simp [hkeys]
  refine ⟨x, nets, hx, hnets, ?_, ⟨s, hs, ?_⟩, ?_⟩
  · have hnochain : ∀ a b, ¬ Chain [] a b := by
      intro a b hab
      obtain ⟨c, hc, -⟩ := Relation.TransGen.head'_iff.1 hab
      cases hc
    obtain ⟨retained, sequential, hclass, hcycle, -⟩ :=
      (schedule_exact hnets hunconstrained ∅).2 fun ⟨b, hb⟩ => hnochain b b hb
    have hedge : ∀ {w r n}, w ∈ nets.writers n → r ∈ nets.readers n → w ≠ r →
        Precedes [] retained w r := by
      intro w r n hw hr hne
      obtain ⟨e, he, hwriter, hreader, -⟩ :=
        (hclass.mem_retained w r n).2 ⟨hw, hr, hne, hnochain r w⟩
      exact .inr ⟨e, he, hwriter, hreader⟩
    have hforth := hedge hwriter₀ hreader₀ (by decide)
    have hback := hedge hwriter₁ hreader₁ (by decide)
    exact hcycle.2 ⟨⟨0⟩, .tail (.single hforth) hback⟩
  · obtain ⟨hrefused, hclassified⟩ := schedule_exact hnets hordered ∅
    rw [hs] at hrefused hclassified
    have hnone : ¬ ∃ b, Chain [⟨⟨1⟩, ⟨0⟩⟩] b b := fun h => by
      obtain ⟨cycles, hne⟩ := hrefused.2 h
      cases hne
    obtain ⟨retained, sequential, hclass, hcycle, hsuccess⟩ := hclassified hnone
    obtain ⟨s', hs', rfl, rfl⟩ := hsuccess.2 fun h => by
      obtain ⟨cycles, hne⟩ := hcycle.2 h
      cases hne
    obtain rfl := Except.ok.inj hs'
    have hchain : Chain [⟨⟨1⟩, ⟨0⟩⟩] ⟨1⟩ ⟨0⟩ := .single (by simp)
    have hnochain : ¬ Chain [⟨⟨1⟩, ⟨0⟩⟩] ⟨0⟩ ⟨1⟩ := fun h => hnone ⟨⟨0⟩, h.trans hchain⟩
    obtain ⟨e, he, hw, hr, -⟩ :=
      (hclass.mem_retained ⟨1⟩ ⟨0⟩ ⟨1⟩).2 ⟨hwriter₁, hreader₁, by decide, hnochain⟩
    obtain ⟨f, hf, hw', hr', -⟩ :=
      (hclass.mem_sequential ⟨0⟩ ⟨1⟩ ⟨0⟩).2 ⟨hwriter₀, hreader₀, by decide, hchain⟩
    exact ⟨⟨e, he, hw, hr⟩, f, hf, hw', hr'⟩
  · refine (schedule_exact hnets (by simp [hkeys]) ∅).1.2 ⟨⟨0⟩, ?_⟩
    exact .tail (.single (b := ⟨1⟩) (by simp)) (by simp)

end Cyclewise
