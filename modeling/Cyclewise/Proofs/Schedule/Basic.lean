import Cyclewise.Proofs.Graph.Level
import Cyclewise.Proofs.Net.Resolution
import Cyclewise.Proofs.Schedule.Batches

/-!
# What a schedule respects

The ordering graph of `schedule` has an edge for each constraint and each retained edge
(`edge_addPairs`), and levels grow along its edges.  So a schedule, if there is one, lists each
analysed block once and puts the two ends of every constraint and of every retained edge in order;
an inferred edge is sequential exactly when constraints lead from its reader to its writer
(`Schedules`).
-/

namespace Cyclewise

/-- One or more constraints lead from the first block to the second one. -/
def Chain (constraints : List Constraint) : BlockId → BlockId → Prop :=
  Relation.TransGen fun a b => ⟨a, b⟩ ∈ constraints

/-- An order that respects constraints also respects chains of them. -/
theorem Chain.earlier {constraints : List Constraint} {order : List BlockId} {a b : BlockId}
    (hab : Chain constraints a b) (h : ∀ c ∈ constraints, Earlier order c.before c.after) :
    Earlier order a b := by
  induction hab with
  | single hc => exact h _ hc
  | tail _ hc ih => exact ih.trans (h _ hc)

/-! ## Adding edges -/

namespace DiGraph

theorem size_addEdge (g : DiGraph) (u v : Nat) : (g.addEdge u v).size = g.size := by
  unfold addEdge size
  rw [Array.size_modify]

theorem edge_addEdge {g : DiGraph} {u : Nat} (hu : u < g.size) (v x y : Nat) :
    (g.addEdge u v).Edge x y ↔ g.Edge x y ∨ (x = u ∧ y = v) := by
  have hsucc : (g.addEdge u v).succ x =
      if u = x then (if v ∈ g.succ x then g.succ x else g.succ x ++ [v]) else g.succ x := by
    unfold addEdge succ
    rw [Array.getD_eq_getD_getElem?, Array.getElem?_modify, Array.getD_eq_getD_getElem?]
    by_cases hux : u = x
    · subst hux
      rw [if_pos rfl, if_pos rfl, Array.getElem?_eq_getElem hu]
      rfl
    · rw [if_neg hux, if_neg hux]
  unfold Edge
  rw [hsucc]
  by_cases hux : u = x
  · subst hux
    rw [if_pos rfl]
    by_cases hv : v ∈ g.succ u
    · rw [if_pos hv]
      constructor
      · exact .inl
      · rintro (h | ⟨-, rfl⟩)
        · exact h
        · exact hv
    · rw [if_neg hv, List.mem_append, List.mem_singleton]
      simp
  · rw [if_neg hux]
    simp [Ne.symm hux]

theorem edge_empty (n u v : Nat) : ¬ (empty n).Edge u v := by
  unfold Edge succ empty
  rw [Array.getD_eq_getD_getElem?, Array.getElem?_replicate]
  split <;> exact List.not_mem_nil

theorem size_empty (n : Nat) : (empty n).size = n := by
  simp [empty, size]

end DiGraph

namespace Schedule

theorem node_eq_ok {nodes : List BlockId} {b : BlockId} {i : Nat} :
    node nodes b = .ok i ↔ nodes.idxOf? b = some i := by
  unfold node
  split
  · next j hj => rw [hj, Except.ok.injEq, Option.some.injEq]
  · next hnone => simp [hnone]

theorem lt_length_of_idxOf? {nodes : List BlockId} {b : BlockId} {i : Nat}
    (h : nodes.idxOf? b = some i) : i < nodes.length := by
  obtain ⟨hi, -⟩ := List.idxOf?_eq_some_iff.1 h
  exact hi

/-- Adding pairs adds an edge for each pair, between the places of two nodes. -/
theorem edge_addPairs {nodes : List BlockId} {pairs : List (BlockId × BlockId)} {g g' : DiGraph}
    (hg : g.size = nodes.length) (h : addPairs nodes g pairs = .ok g') :
    g'.size = nodes.length ∧ (∀ p ∈ pairs, p.1 ∈ nodes ∧ p.2 ∈ nodes) ∧
      ∀ u v, g'.Edge u v ↔ g.Edge u v ∨
        ∃ p ∈ pairs, nodes.idxOf? p.1 = some u ∧ nodes.idxOf? p.2 = some v := by
  induction pairs generalizing g with
  | nil =>
    obtain rfl := Except.ok.inj h
    refine ⟨hg, fun p hp => ?_, fun u v => ?_⟩
    · cases hp
    · simp
  | cons p pairs ih =>
    obtain ⟨a, b⟩ := p
    simp only [addPairs, List.foldlM_cons, bind, Except.bind] at h
    cases ha : node nodes a with
    | error e => rw [ha] at h; cases h
    | ok u =>
      cases hb : node nodes b with
      | error e => rw [ha, hb] at h; cases h
      | ok v =>
        rw [ha, hb] at h
        rw [node_eq_ok] at ha hb
        have hu : u < g.size := hg.symm ▸ lt_length_of_idxOf? ha
        obtain ⟨hsize, hmem, hedge⟩ := ih ((g.size_addEdge u v).trans hg) h
        refine ⟨hsize, fun q hq => ?_, fun x y => ?_⟩
        · rcases List.mem_cons.1 hq with rfl | hq
          · exact ⟨List.isSome_idxOf?.1 (by rw [ha]; rfl), List.isSome_idxOf?.1 (by rw [hb]; rfl)⟩
          · exact hmem q hq
        · rw [hedge, DiGraph.edge_addEdge hu]
          simp only [List.mem_cons, exists_eq_or_imp, ha, hb, Option.some.injEq]
          rw [or_assoc, eq_comm (a := x), eq_comm (a := y)]

/-- Adding pairs after others is adding both. -/
theorem addPairs_append {nodes : List BlockId} {ps qs : List (BlockId × BlockId)}
    {g g' g'' : DiGraph} (hps : addPairs nodes g ps = .ok g')
    (hqs : addPairs nodes g' qs = .ok g'') :
    addPairs nodes g (ps ++ qs) = .ok g'' := by
  unfold addPairs at hps hqs ⊢
  rw [List.foldlM_append, hps]
  exact hqs

theorem closed_of_addPairs {nodes : List BlockId} {pairs : List (BlockId × BlockId)} {g : DiGraph}
    (hg : addPairs nodes (.empty nodes.length) pairs = .ok g) : g.Closed := by
  obtain ⟨hsize, -, hedge⟩ := edge_addPairs (DiGraph.size_empty _) hg
  refine DiGraph.closed_iff.2 fun u v huv => ?_
  rw [hsize]
  rcases (hedge u v).1 huv with h | ⟨p, -, -, hv⟩
  · exact absurd h (DiGraph.edge_empty _ u v)
  · exact lt_length_of_idxOf? hv

/-- The graph of a list of pairs leads from place to place as the pairs lead from block to block. -/
theorem leads_iff_reaches {nodes : List BlockId} (hnodup : nodes.Nodup)
    {pairs : List (BlockId × BlockId)} {g : DiGraph}
    (hg : addPairs nodes (.empty nodes.length) pairs = .ok g) {a b : BlockId} {u v : Nat}
    (ha : nodes.idxOf? a = some u) (hb : nodes.idxOf? b = some v) :
    Relation.TransGen g.Edge u v ↔ Relation.TransGen (fun a b => (a, b) ∈ pairs) a b := by
  obtain ⟨-, hmem, hedge⟩ := edge_addPairs (DiGraph.size_empty _) hg
  have hedge' : ∀ u v, g.Edge u v ↔ ∃ p ∈ pairs,
      nodes.idxOf? p.1 = some u ∧ nodes.idxOf? p.2 = some v := by
    intro u v
    rw [hedge]
    simp [DiGraph.edge_empty]
  have hunique : ∀ {a b : BlockId} {u : Nat}, nodes.idxOf? a = some u → nodes.idxOf? b = some u →
      a = b := by
    intro a b u ha hb
    rw [idxOf?_eq_some_iff_getElem? hnodup] at ha hb
    exact Option.some.inj (ha.symm.trans hb)
  constructor
  · intro h
    induction h generalizing b with
    | single h =>
      obtain ⟨p, hp, hbefore, hafter⟩ := (hedge' ..).1 h
      obtain rfl := hunique hbefore ha
      obtain rfl := hunique hafter hb
      exact .single hp
    | tail _ h ih =>
      obtain ⟨p, hp, hbefore, hafter⟩ := (hedge' ..).1 h
      obtain rfl := hunique hafter hb
      exact .tail (ih hbefore) hp
  · intro h
    induction h generalizing v with
    | single h => exact .single ((hedge' ..).2 ⟨_, h, ha, hb⟩)
    | @tail m b _ h ih =>
      obtain ⟨w, hw⟩ := Option.isSome_iff_exists.1 (List.isSome_idxOf?.2 (hmem (m, b) h).1)
      exact .tail (ih hw) ((hedge' ..).2 ⟨_, h, hw, hb⟩)

theorem chain_iff_pairs {constraints : List Constraint} {a b : BlockId} :
    Relation.TransGen (fun a b => (a, b) ∈ constraints.map fun c => (c.before, c.after)) a b ↔
      Chain constraints a b := by
  have hpair : (fun a b => (a, b) ∈ constraints.map fun c => (c.before, c.after)) =
      fun a b : BlockId => (⟨a, b⟩ : Constraint) ∈ constraints := by
    funext a b
    rw [List.mem_map, eq_iff_iff]
    constructor
    · rintro ⟨c, hc, h⟩
      obtain ⟨rfl, rfl⟩ := Prod.mk.inj h
      exact hc
    · exact fun h => ⟨_, h, rfl⟩
  rw [hpair]
  rfl

/-! ## Sequential edges -/

/-- Marking succeeds when all ends are nodes, and looks their places up in the table. -/
theorem markSequential_eq_ok {nodes : List BlockId} {rows : Array BitSet}
    {edges : List InferredEdge} {marked : List (InferredEdge × Bool)}
    (h : markSequential nodes rows edges = .ok marked) :
    (∀ e ∈ edges, ∃ r w, nodes.idxOf? e.reader = some r ∧ nodes.idxOf? e.writer = some w) ∧
      marked = edges.map fun e =>
        (e, DiGraph.reaches rows (nodes.idxOf e.reader) (nodes.idxOf e.writer)) := by
  induction edges generalizing marked with
  | nil =>
    obtain rfl := Except.ok.inj h
    refine ⟨fun e he => ?_, rfl⟩
    cases he
  | cons e edges ih =>
    simp only [markSequential, isSequential, List.mapM_cons, bind, Except.bind] at h ih
    cases hr : node nodes e.reader with
    | error _ => rw [hr] at h; cases h
    | ok r =>
      cases hw : node nodes e.writer with
      | error _ => rw [hr, hw] at h; cases h
      | ok w =>
        rw [hr, hw] at h
        rw [node_eq_ok] at hr hw
        simp only [pure, Except.pure] at h ih
        split at h
        · cases h
        · next rest hrest =>
          obtain ⟨hends, rfl⟩ := ih hrest
          obtain rfl := Except.ok.inj h
          have hidx : ∀ {b : BlockId} {i : Nat}, nodes.idxOf? b = some i → nodes.idxOf b = i := by
            intro b i hb
            rw [List.idxOf_eq_getD_idxOf?, hb, Option.getD_some]
          refine ⟨fun e' he' => ?_, ?_⟩
          · rcases List.mem_cons.1 he' with rfl | he'
            · exact ⟨r, w, hr, hw⟩
            · exact hends e' he'
          · rw [List.map_cons, hidx hr, hidx hw]

/-- Choosing edges by their marks is choosing them by what they are marked with. -/
theorem filter_marked {edges : List InferredEdge} {mark : InferredEdge → Bool}
    {p : InferredEdge × Bool → Bool} (q : InferredEdge → Bool) (h : ∀ e, p (e, mark e) = q e) :
    ((edges.map fun e => (e, mark e)).filter p).map Prod.fst = edges.filter q := by
  have hpq : (p ∘ fun e => (e, mark e)) = q := funext h
  rw [List.filter_map, List.map_map, hpq]
  exact List.map_id _

/-! ## How a schedule comes about -/

/-- Whether constraints lead from the reader of an edge to its writer, by the table of the explicit
graph. -/
def registered (nodes : List BlockId) (explicit : DiGraph) (e : InferredEdge) : Bool :=
  DiGraph.reaches explicit.reach (nodes.idxOf e.reader) (nodes.idxOf e.writer)

theorem registered_iff_chain {nodes : List BlockId} (hnodup : nodes.Nodup)
    {constraints : List Constraint} {explicit : DiGraph}
    (hexplicit : addPairs nodes (.empty nodes.length)
      (constraints.map fun c => (c.before, c.after)) = .ok explicit) {e : InferredEdge} {r w : Nat}
    (hr : nodes.idxOf? e.reader = some r) (hw : nodes.idxOf? e.writer = some w) :
    registered nodes explicit e = true ↔ Chain constraints e.reader e.writer := by
  unfold registered
  rw [DiGraph.reaches_reach, ← chain_iff_pairs, ← leads_iff_reaches hnodup hexplicit hr hw,
    List.idxOf_eq_getD_idxOf?, List.idxOf_eq_getD_idxOf?, hr, hw]
  rfl

/-- The two graphs and the levels behind a schedule. -/
structure Layout (nodes : List BlockId) (edges : List InferredEdge)
    (constraints : List Constraint) (s : Schedule) (explicit full : DiGraph)
    (levels : Array Nat) : Prop where
  explicit_eq : addPairs nodes (.empty nodes.length)
    (constraints.map fun c => (c.before, c.after)) = .ok explicit
  ends : ∀ e ∈ edges, ∃ r w, nodes.idxOf? e.reader = some r ∧ nodes.idxOf? e.writer = some w
  retained_eq : s.retained = edges.filter fun e => !registered nodes explicit e
  sequential_eq : s.sequential = edges.filter (registered nodes explicit)
  full_eq : addPairs nodes explicit (s.retained.map fun e => (e.writer, e.reader)) = .ok full
  levels_eq : full.levels = some levels
  batches_eq : s.batches = batchesOf nodes levels

theorem layout_of_schedule {signals : SignalTable} {x : Extraction} {nets : NetMap}
    {constraints : List Constraint} {s : Schedule}
    (h : schedule signals x nets constraints = .ok s) :
    ∃ explicit full levels, Layout (ascendingBy BlockId.index x.analyzed.keys)
      (InferredEdge.inferAll x nets) constraints s explicit full levels := by
  simp only [schedule, bind, Except.bind] at h
  split at h
  · cases h
  · next explicit hexplicit =>
    split at h
    · cases h
    · split at h
      · cases h
      · next marked hmarked =>
        split at h
        · cases h
        · next full hfull =>
          split at h
          · cases h
          · next levels hlevels =>
            obtain ⟨hends, rfl⟩ := markSequential_eq_ok hmarked
            obtain rfl := Except.ok.inj h
            exact ⟨explicit, full, levels, hexplicit, hends, filter_marked _ fun _ => rfl,
              filter_marked _ fun _ => rfl, hfull, hlevels, rfl⟩

namespace Layout

variable {nodes : List BlockId} {edges : List InferredEdge} {constraints : List Constraint}
  {s : Schedule} {explicit full : DiGraph} {levels : Array Nat}
  (h : Layout nodes edges constraints s explicit full levels)

include h

theorem size_full : full.size = nodes.length := by
  obtain ⟨hsize, -, -⟩ := edge_addPairs (DiGraph.size_empty _) h.explicit_eq
  exact (edge_addPairs hsize h.full_eq).1

/-- The ordering graph joins the ends of constraints and of retained edges. -/
theorem edge_full (u v : Nat) : full.Edge u v ↔
    (∃ c ∈ constraints, nodes.idxOf? c.before = some u ∧ nodes.idxOf? c.after = some v) ∨
      ∃ e ∈ s.retained, nodes.idxOf? e.writer = some u ∧ nodes.idxOf? e.reader = some v := by
  obtain ⟨hsize, -, hedge⟩ := edge_addPairs (DiGraph.size_empty _) h.explicit_eq
  obtain ⟨-, -, hedge'⟩ := edge_addPairs hsize h.full_eq
  rw [hedge', hedge]
  simp [DiGraph.edge_empty]

theorem closed_full : full.Closed :=
  closed_of_addPairs (addPairs_append h.explicit_eq h.full_eq)

theorem size_levels : levels.size = nodes.length :=
  (DiGraph.size_of_levels h.closed_full h.levels_eq).trans h.size_full

/-- The edges of the ordering graph lead to later batches. -/
theorem lower_of_edge (hnodup : nodes.Nodup) {a b : BlockId} {u v : Nat}
    (ha : nodes.idxOf? a = some u) (hb : nodes.idxOf? b = some v) (huv : full.Edge u v) :
    LowerBatch s.batches a b := by
  have hlt := DiGraph.level_lt_of_levels h.closed_full h.levels_eq huv
  rw [idxOf?_eq_some_iff_getElem? hnodup] at ha hb
  rw [h.batches_eq]
  exact lower_of_level_lt h.size_levels ha hb hlt

/-- Constraints join nodes. -/
theorem idxOf?_of_constraint {c : Constraint} (hc : c ∈ constraints) :
    ∃ u v, nodes.idxOf? c.before = some u ∧ nodes.idxOf? c.after = some v := by
  obtain ⟨-, hmem, -⟩ := edge_addPairs (DiGraph.size_empty _) h.explicit_eq
  obtain ⟨hbefore, hafter⟩ := hmem _ (List.mem_map.2 ⟨c, hc, rfl⟩)
  obtain ⟨u, hu⟩ := Option.isSome_iff_exists.1 (List.isSome_idxOf?.2 hbefore)
  obtain ⟨v, hv⟩ := Option.isSome_iff_exists.1 (List.isSome_idxOf?.2 hafter)
  exact ⟨u, v, hu, hv⟩

theorem registered_iff (hnodup : nodes.Nodup) {e : InferredEdge} (he : e ∈ edges) :
    registered nodes explicit e = true ↔ Chain constraints e.reader e.writer := by
  obtain ⟨r, w, hr, hw⟩ := h.ends e he
  exact registered_iff_chain hnodup h.explicit_eq hr hw

end Layout

end Schedule

/-! ## Schedules -/

/-- What a schedule of analysed blocks respects. -/
structure Schedules (x : Extraction) (nets : NetMap) (constraints : List Constraint)
    (s : Schedule) : Prop where
  perm : s.order.Perm x.analyzed.keys
  lower_of_constraint : ∀ c ∈ constraints, LowerBatch s.batches c.before c.after
  lower_of_retained : ∀ e ∈ s.retained, LowerBatch s.batches e.writer e.reader
  mem_retained : ∀ e, e ∈ s.retained ↔
    e ∈ InferredEdge.inferAll x nets ∧ ¬ Chain constraints e.reader e.writer
  mem_sequential : ∀ e, e ∈ s.sequential ↔
    e ∈ InferredEdge.inferAll x nets ∧ Chain constraints e.reader e.writer

/-- The nodes of the ordering graph are the analysed blocks. -/
theorem perm_nodes (x : Extraction) :
    (ascendingBy BlockId.index x.analyzed.keys).Perm x.analyzed.keys := by
  have hnodup := nodup_of_ascending (pairwise_ascendingBy BlockId.index x.analyzed.keys)
  exact (List.perm_ext_iff_of_nodup hnodup x.analyzed.nodup_keys).2 fun b => mem_ascendingBy_block

theorem schedule_eq_ok {signals : SignalTable} {x : Extraction} {nets : NetMap}
    {constraints : List Constraint} {s : Schedule}
    (h : schedule signals x nets constraints = .ok s) : Schedules x nets constraints s := by
  have hnodup := (perm_nodes x).symm.nodup x.analyzed.nodup_keys
  obtain ⟨explicit, full, levels, hs⟩ := Schedule.layout_of_schedule h
  refine ⟨?_, fun c hc => ?_, fun e he => ?_, fun e => ?_, fun e => ?_⟩
  · unfold Schedule.order
    rw [hs.batches_eq]
    exact (Schedule.perm_batchesOf hs.size_levels).trans (perm_nodes x)
  · obtain ⟨u, v, hu, hv⟩ := hs.idxOf?_of_constraint hc
    exact hs.lower_of_edge hnodup hu hv ((hs.edge_full u v).2 (.inl ⟨c, hc, hu, hv⟩))
  · have hinferred : e ∈ InferredEdge.inferAll x nets := by
      rw [hs.retained_eq] at he
      exact List.mem_of_mem_filter he
    obtain ⟨r, w, hr, hw⟩ := hs.ends e hinferred
    exact hs.lower_of_edge hnodup hw hr ((hs.edge_full w r).2 (.inr ⟨e, he, hw, hr⟩))
  · rw [hs.retained_eq, List.mem_filter, Bool.not_eq_true']
    refine and_congr_right fun he => ?_
    rw [← hs.registered_iff hnodup he, Bool.not_eq_true]
  · rw [hs.sequential_eq, List.mem_filter]
    exact and_congr_right fun he => hs.registered_iff hnodup he

namespace Schedules

variable {x : Extraction} {nets : NetMap} {constraints : List Constraint} {s : Schedule}
  (h : Schedules x nets constraints s)

include h

theorem nodup : s.order.Nodup := h.perm.symm.nodup x.analyzed.nodup_keys

theorem constraint : ∀ c ∈ constraints, Earlier s.order c.before c.after :=
  fun c hc => (h.lower_of_constraint c hc).earlier h.nodup

theorem retained : ∀ e ∈ s.retained, Earlier s.order e.writer e.reader :=
  fun e he => (h.lower_of_retained e he).earlier h.nodup

theorem earlier_of_chain {a b : BlockId} (hab : Chain constraints a b) : Earlier s.order a b :=
  hab.earlier h.constraint

end Schedules

/-! ## Inferred edges -/

/-- An edge is inferred for every net that one block writes and another one reads. -/
theorem InferredEdge.mem_inferAll {x : Extraction} {nets : NetMap} {e : InferredEdge} :
    e ∈ inferAll x nets ↔ ∃ n w r, n.index < nets.size ∧ w ∈ nets.writers n ∧
      r ∈ nets.readers n ∧ w ≠ r ∧ infer x nets n w r = e := by
  unfold inferAll NetMap.ids
  simp only [List.mem_flatMap, List.mem_map, List.mem_filter, List.mem_range, decide_eq_true_eq]
  constructor
  · rintro ⟨n, ⟨i, hi, rfl⟩, w, hw, r, ⟨hr, hne⟩, rfl⟩
    exact ⟨⟨i⟩, w, r, hi, hw, hr, hne, rfl⟩
  · rintro ⟨n, w, r, hn, hw, hr, hne, rfl⟩
    exact ⟨n, ⟨n.index, hn, rfl⟩, w, hw, r, ⟨hr, hne⟩, rfl⟩

/-- The ends of an inferred edge write and read its net. -/
theorem InferredEdge.ends {x : Extraction} {nets : NetMap} {e : InferredEdge}
    (he : e ∈ inferAll x nets) : e.writer ∈ nets.writers e.net ∧ e.reader ∈ nets.readers e.net := by
  obtain ⟨n, w, r, -, hw, hr, -, rfl⟩ := mem_inferAll.1 he
  exact ⟨hw, hr⟩

end Cyclewise
