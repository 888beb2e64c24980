import Cyclewise.Proofs.Graph.Longest
import Cyclewise.Proofs.Schedule.Acceptance

/-!
# The shape of a schedule

The batches of a schedule are those of the levels in its ordering graph, and the edges of this graph
are the constraints and the retained edges (`Layout.edge_iff_precedes`).  So the place of the batch
of a block is the length of the longest path of constraints and retained edges that ends at the
block.  No batch is empty, since below a level no level is missing, and no other way to put the
blocks into layers that follow the same edges has fewer layers (`schedule_layered`).
-/

namespace Cyclewise

/-! ## Layers -/

/-- In layers without repetition, every block is in one layer. -/
theorem layer_unique {layers : List (List BlockId)} (hnodup : layers.flatten.Nodup) {i j : Nat}
    {xs ys : List BlockId} (hi : layers[i]? = some xs) (hj : layers[j]? = some ys) {b : BlockId}
    (hx : b ∈ xs) (hy : b ∈ ys) : i = j := by
  have happart := List.pairwise_iff_getElem.1 (List.nodup_flatten.1 hnodup).2
  obtain ⟨hilt, rfl⟩ := List.getElem?_eq_some_iff.1 hi
  obtain ⟨hjlt, rfl⟩ := List.getElem?_eq_some_iff.1 hj
  rcases Nat.lt_trichotomy i j with h | h | h
  · exact absurd hy (happart i j hilt hjlt h hx)
  · exact h
  · exact absurd hx (happart j i hjlt hilt h hy)

/-- Where steps lead to later layers, the end of a path has as many layers before it as the path has
steps. -/
theorem PathTo.le_layer {R : BlockId → BlockId → Prop} {layers : List (List BlockId)}
    (hnodup : layers.flatten.Nodup) (hlower : ∀ a b, R a b → LowerBatch layers a b) {n : Nat}
    {b : BlockId} (h : PathTo R n b) {i : Nat} {xs : List BlockId} (hi : layers[i]? = some xs)
    (hb : b ∈ xs) : n ≤ i := by
  induction h generalizing i xs with
  | start => exact Nat.zero_le i
  | @step n a b _ hab ih =>
    obtain ⟨i', j, xs', ys, hi', hj, ha, hb', hlt⟩ := hlower a b hab
    have hle := ih hi' ha
    obtain rfl := layer_unique hnodup hi hj hb hb'
    omega

/-- Batches that are not empty, and whose blocks end paths through all earlier batches, are no more
than the layers of the same blocks. -/
theorem length_le_of_layers {R : BlockId → BlockId → Prop} {batches layers : List (List BlockId)}
    (hne : ∀ batch ∈ batches, batch ≠ [])
    (hpath : ∀ (k : Nat) batch, batches[k]? = some batch → ∀ b ∈ batch, PathTo R k b)
    (hmem : ∀ b ∈ batches.flatten, b ∈ layers.flatten) (hnodup : layers.flatten.Nodup)
    (hlower : ∀ a b, R a b → LowerBatch layers a b) : batches.length ≤ layers.length := by
  rcases Nat.eq_zero_or_pos batches.length with hzero | hpos
  · omega
  · have hlast : batches.length - 1 < batches.length := by omega
    obtain ⟨b, hb⟩ := List.exists_mem_of_ne_nil _ (hne _ (List.getElem_mem hlast))
    have hend := hpath _ _ (List.getElem?_eq_getElem hlast) b hb
    obtain ⟨xs, hxs, hbxs⟩ :=
      List.mem_flatten.1 (hmem b (List.mem_flatten.2 ⟨_, List.getElem_mem hlast, hb⟩))
    obtain ⟨i, hi⟩ := List.mem_iff_getElem?.1 hxs
    have hle := hend.le_layer hnodup hlower hi hbxs
    obtain ⟨hilt, -⟩ := List.getElem?_eq_some_iff.1 hi
    omega

/-! ## The ordering graph -/

namespace Schedule.Layout

variable {nodes : List BlockId} {edges : List InferredEdge} {constraints : List Constraint}
  {s : Schedule} {explicit full : DiGraph} {levels : Array Nat}
  (h : Layout nodes edges constraints s explicit full levels)

include h

/-- Constraints and retained edges join nodes. -/
theorem idxOf?_of_precedes {a b : BlockId} (hab : Precedes constraints s.retained a b) :
    ∃ u v, nodes.idxOf? a = some u ∧ nodes.idxOf? b = some v := by
  rcases hab with hc | ⟨e, he, rfl, rfl⟩
  · exact h.idxOf?_of_constraint hc
  · rw [h.retained_eq] at he
    obtain ⟨r, w, hr, hw⟩ := h.ends e (List.mem_of_mem_filter he)
    exact ⟨w, r, hw, hr⟩

variable (hnodup : nodes.Nodup)

include hnodup

/-- The edges of the ordering graph are the constraints and the retained edges. -/
theorem edge_iff_precedes {a b : BlockId} {u v : Nat} (ha : nodes.idxOf? a = some u)
    (hb : nodes.idxOf? b = some v) : full.Edge u v ↔ Precedes constraints s.retained a b := by
  have hsame : ∀ {c d : BlockId} {i : Nat}, nodes.idxOf? c = some i → nodes.idxOf? d = some i →
      c = d := by
    intro c d i hc hd
    rw [idxOf?_eq_some_iff_getElem? hnodup] at hc hd
    exact Option.some.inj (hc.symm.trans hd)
  rw [h.edge_full]
  constructor
  · rintro (⟨c, hc, hbefore, hafter⟩ | ⟨e, he, hwriter, hreader⟩)
    · obtain rfl := hsame hbefore ha
      obtain rfl := hsame hafter hb
      exact .inl hc
    · exact .inr ⟨e, he, hsame hwriter ha, hsame hreader hb⟩
  · rintro (hc | ⟨e, he, rfl, rfl⟩)
    · exact .inl ⟨_, hc, ha, hb⟩
    · exact .inr ⟨e, he, ha, hb⟩

/-- The ordering graph has a path to a node for every path to its block. -/
theorem pathTo_iff {n : Nat} {b : BlockId} {u : Nat} (hb : nodes.idxOf? b = some u) :
    PathTo full.Edge n u ↔ PathTo (Precedes constraints s.retained) n b := by
  constructor
  · intro hpath
    induction hpath generalizing b with
    | start => exact .start b
    | @step n v u _ hvu ih =>
      have hlt : v < nodes.length := h.size_full ▸ hvu.lt_size
      have ha : nodes.idxOf? nodes[v] = some v :=
        (idxOf?_eq_some_iff_getElem? hnodup).2 (List.getElem?_eq_getElem hlt)
      exact (ih ha).step ((h.edge_iff_precedes hnodup ha hb).1 hvu)
  · intro hpath
    induction hpath generalizing u with
    | start => exact .start u
    | @step n a b _ hab ih =>
      obtain ⟨v, -, ha, -⟩ := h.idxOf?_of_precedes hab
      exact (ih ha).step ((h.edge_iff_precedes hnodup ha hb).2 hab)

/-- A block is in the batch of the length of the longest path that ends at it. -/
theorem isGreatest_of_mem_batch {k : Nat} {batch : List BlockId}
    (hbatch : s.batches[k]? = some batch) {b : BlockId} (hb : b ∈ batch) :
    IsGreatest {n | PathTo (Precedes constraints s.retained) n b} k := by
  rw [h.batches_eq] at hbatch
  obtain ⟨u, hu, hlevel⟩ := (mem_batchesOf hbatch).1 hb
  have hpaths : {n | PathTo (Precedes constraints s.retained) n b} =
      {n | PathTo full.Edge n u} := by
    ext n
    exact (h.pathTo_iff hnodup ((idxOf?_eq_some_iff_getElem? hnodup).2 hu)).symm
  have hk : levels.getD u 0 = k := by
    rw [Array.getD_eq_getD_getElem?, hlevel, Option.getD_some]
  rw [hpaths, ← hk]
  exact DiGraph.isGreatest_of_levels h.closed_full h.levels_eq u

omit hnodup in
/-- Every level up to the highest one has nodes. -/
theorem batch_ne_nil {batch : List BlockId} (hbatch : batch ∈ s.batches) : batch ≠ [] := by
  rw [h.batches_eq] at hbatch
  obtain ⟨k, hk⟩ := List.mem_iff_getElem?.1 hbatch
  obtain ⟨level, hmem, hle⟩ := exists_le_of_lt_depth (getElem?_batchesOf.1 hk).1
  obtain ⟨v, hv⟩ := Array.getElem?_of_mem hmem
  obtain ⟨hvlt, -⟩ := Array.getElem?_eq_some_iff.1 hv
  have hle' : k ≤ levels.getD v 0 := by
    rwa [Array.getD_eq_getD_getElem?, hv, Option.getD_some]
  have hsize : full.size = levels.size := h.size_full.trans h.size_levels.symm
  obtain ⟨u, hu, hlevel⟩ :=
    DiGraph.exists_level_eq h.closed_full h.levels_eq (hsize ▸ hvlt) hle'
  have hu' : u < levels.size := hsize ▸ hu
  obtain ⟨b, hb⟩ : ∃ b, nodes[u]? = some b := ⟨_, List.getElem?_eq_getElem (h.size_levels ▸ hu')⟩
  refine List.ne_nil_of_mem ((mem_batchesOf hk).2 ⟨u, hb, ?_⟩)
  rw [← hlevel, Array.getD_eq_getD_getElem?, Array.getElem?_eq_getElem hu', Option.getD_some]

end Schedule.Layout

/-! ## Schedules -/

/-- What a schedule of analysed blocks looks like: its order runs through the batches, a block is in
the batch of the length of the longest path of constraints and retained edges to it, and the batches
are as few as these edges allow. -/
structure Layered (x : Extraction) (constraints : List Constraint) (s : Schedule) : Prop where
  perm : s.order.Perm x.analyzed.keys
  order_eq : s.order = s.batches.flatten
  rank_iff : ∀ b i, s.rank? b = some i ↔ s.order[i]? = some b
  ne_nil : ∀ batch ∈ s.batches, batch ≠ []
  ascend : ∀ batch ∈ s.batches, batch.Pairwise (·.index < ·.index)
  longest : ∀ (k : Nat) batch, s.batches[k]? = some batch → ∀ b ∈ batch,
    IsGreatest {n | PathTo (Precedes constraints s.retained) n b} k
  fewest : ∀ layers : List (List BlockId), layers.flatten.Perm x.analyzed.keys →
    (∀ a b, Precedes constraints s.retained a b → LowerBatch layers a b) →
      s.batches.length ≤ layers.length
  lower_of_constraint : ∀ c ∈ constraints, LowerBatch s.batches c.before c.after
  lower_of_retained : ∀ e ∈ s.retained, LowerBatch s.batches e.writer e.reader
  lower_of_sequential : ∀ e ∈ s.sequential, LowerBatch s.batches e.reader e.writer

/-- Chains of constraints lead to later batches. -/
theorem Schedules.lower_of_chain {x : Extraction} {nets : NetMap} {constraints : List Constraint}
    {s : Schedule} (h : Schedules x nets constraints s) {a b : BlockId}
    (hab : Chain constraints a b) : LowerBatch s.batches a b := by
  induction hab with
  | single hc => exact h.lower_of_constraint _ hc
  | tail _ hc ih =>
    obtain ⟨i, j, xs, ys, hi, hj, ha, hm, hij⟩ := ih
    obtain ⟨j', k, ys', zs, hj', hk, hm', hb, hjk⟩ := h.lower_of_constraint _ hc
    obtain rfl := layer_unique h.nodup hj hj' hm hm'
    exact ⟨i, k, xs, zs, hi, hk, ha, hb, hij.trans hjk⟩

/-- **Shape.**  A schedule lists the analysed blocks once each, batch after batch.  Batches are not
empty and ascend by block, the place of a batch is the length of the longest path to each of its
blocks, and there are no more batches than needed.  So constraints and retained edges lead to later
batches, and the reader of a sequential edge is in an earlier batch than its writer. -/
theorem schedule_layered {signals : SignalTable} {x : Extraction} {nets : NetMap}
    {constraints : List Constraint} {s : Schedule}
    (h : schedule signals x nets constraints = .ok s) : Layered x constraints s := by
  have hs := schedule_eq_ok h
  have hnodup := (perm_nodes x).symm.nodup x.analyzed.nodup_keys
  obtain ⟨explicit, full, levels, hlayout⟩ := Schedule.layout_of_schedule h
  have hlongest : ∀ (k : Nat) batch, s.batches[k]? = some batch → ∀ b ∈ batch,
      IsGreatest {n | PathTo (Precedes constraints s.retained) n b} k :=
    fun k batch hk b hb => hlayout.isGreatest_of_mem_batch hnodup hk hb
  have hne : ∀ batch ∈ s.batches, batch ≠ [] := fun batch hbatch => hlayout.batch_ne_nil hbatch
  refine
    { perm := hs.perm
      order_eq := rfl
      rank_iff := fun b i => idxOf?_eq_some_iff_getElem? hs.nodup
      ne_nil := hne
      ascend := fun batch hbatch => ?_
      longest := hlongest
      fewest := fun layers hperm hlower => ?_
      lower_of_constraint := hs.lower_of_constraint
      lower_of_retained := hs.lower_of_retained
      lower_of_sequential := fun e he => hs.lower_of_chain ((hs.mem_sequential e).1 he).2 }
  · rw [hlayout.batches_eq] at hbatch
    exact Schedule.pairwise_batchesOf hlayout.size_levels (pairwise_ascendingBy ..) hbatch
  · refine length_le_of_layers hne (fun k batch hk b hb => (hlongest k batch hk b hb).1) ?_
      (hperm.symm.nodup x.analyzed.nodup_keys) hlower
    intro b hb
    rw [hperm.mem_iff, ← hs.perm.mem_iff]
    exact hb

/-- Block 0 is removed with its component.  Block 3 sets signal 0, which block 2 copies to signal 1
and block 1 on to signal 2.  Block 4 reads signal 2 and is to run before block 1. -/
def Design.staged : Design Unit :=
  ofEdits "top"
    [.declare "a" .wire "Bits8" Hierarchy.top, .declare "b" .wire "Bits8" Hierarchy.top,
      .declare "c" .wire "Bits8" Hierarchy.top, .declare "d" .wire "Bits8" Hierarchy.top,
      .addComponent Hierarchy.top "spare",
      .registerBlock ⟨1⟩ (.constant "gone" ⟨3⟩ 1),
      .registerBlock Hierarchy.top (.copy "last" ⟨1⟩ ⟨2⟩),
      .registerBlock Hierarchy.top (.copy "middle" ⟨0⟩ ⟨1⟩),
      .registerBlock Hierarchy.top (.constant "first" ⟨0⟩ 1),
      .registerBlock Hierarchy.top (.copy "sample" ⟨2⟩ ⟨3⟩),
      .addConstraint Hierarchy.top ⟨4⟩ ⟨1⟩, .removeComponent ⟨1⟩]

/-- Two edges lead to block 1, so that three layers are needed, and block 4 samples signal 2 in the
first one. -/
theorem staged_layered : ∃ x nets s, extract Design.staged.liveBlocks = .ok x ∧
    resolve Design.staged.signals [] x ⟨false, Hierarchy.top⟩ = .ok nets ∧
    schedule ∅ x nets [⟨⟨4⟩, ⟨1⟩⟩] = .ok s ∧ s.batches = [[⟨3⟩, ⟨4⟩], [⟨2⟩], [⟨1⟩]] ∧
    (∀ i, s.rank? ⟨2⟩ = some i ↔ s.order[i]? = some ⟨2⟩) ∧
    IsGreatest {n | PathTo (Precedes [⟨⟨4⟩, ⟨1⟩⟩] s.retained) n ⟨1⟩} 2 ∧
    (∀ layers : List (List BlockId), layers.flatten.Perm x.analyzed.keys →
      (∀ a b, Precedes [⟨⟨4⟩, ⟨1⟩⟩] s.retained a b → LowerBatch layers a b) → 3 ≤ layers.length) ∧
    ∃ e ∈ s.sequential, e.reader = ⟨4⟩ ∧ LowerBatch s.batches ⟨4⟩ e.writer := by
  have hcheck : ((extract Design.staged.liveBlocks).toOption.any fun x =>
      (resolve Design.staged.signals [] x ⟨false, Hierarchy.top⟩).toOption.any fun nets =>
        (schedule ∅ x nets [⟨⟨4⟩, ⟨1⟩⟩]).toOption.any fun s =>
          decide (s.batches = [[⟨3⟩, ⟨4⟩], [⟨2⟩], [⟨1⟩]]) &&
            s.sequential.any fun e => decide (e.reader = ⟨4⟩)) = true := by
    decide +kernel
  obtain ⟨x, hx, hcheck⟩ := Design.exists_ok_of_any hcheck
  obtain ⟨nets, hnets, hcheck⟩ := Design.exists_ok_of_any hcheck
  obtain ⟨s, hs, hcheck⟩ := Design.exists_ok_of_any hcheck
  simp only [Bool.and_eq_true, decide_eq_true_eq, List.any_eq_true] at hcheck
  obtain ⟨hbatches, e, he, hreader⟩ := hcheck
  have hlayered := schedule_layered hs
  refine ⟨x, nets, s, hx, hnets, hs, hbatches, hlayered.rank_iff ⟨2⟩, ?_, ?_, e, he, hreader, ?_⟩
  · exact hlayered.longest 2 [⟨1⟩] (by rw [hbatches]; rfl) ⟨1⟩ (List.mem_singleton_self _)
  · intro layers hperm hlower
    have hle := hlayered.fewest layers hperm hlower
    rwa [hbatches] at hle
  · exact hreader ▸ hlayered.lower_of_sequential e he

end Cyclewise
