import Cyclewise.Proofs.Block.Scan
import Cyclewise.Proofs.Net.Edges
import Cyclewise.Proofs.Registers
import Cyclewise.Proofs.Schedule.Acceptance

/-!
# Two ways to find registers

The scheduler calls an inferred edge sequential when constraints lead from its reader to its writer.
The diagnostics look at the ranks afterwards: a dependency inside a block is sequential when the
only writer of the net that it reads runs later.  The block of a dependency is a reader of that net
(`Design.Stages.reader_of_edge`), so an inferred edge leads to it, and it is before its writer in
the order just if the edge is sequential (`Schedules.earlier_iff`).  So the two agree
(`flow_kind_iff`).
-/

namespace Cyclewise

/-- The diagnostics of a schedule are those of its order and its registers. -/
theorem diagnostics_of_schedule {signals : SignalTable} {x : Extraction} {nets : NetMap}
    {constraints : List Constraint} {s : Schedule}
    (h : schedule signals x nets constraints = .ok s) :
    s.diagnostics = Diagnostics.build nets s.order s.sequential := by
  simp only [schedule, bind, Except.bind] at h
  split at h
  · cases h
  · split at h
    · cases h
    · split at h
      · cases h
      · split at h
        · cases h
        · split at h
          · cases h
          · obtain rfl := Except.ok.inj h
            rfl

/-- A read is sequential if the net has one writer, and that is another block and runs later. -/
theorem classify_eq_sequential_iff {nets : NetMap} {order : List BlockId} {n : NetId}
    {b : BlockId} : classify nets (order.idxOf? ·) n b = .sequential ↔
      ∃ w, nets.writers n = [w] ∧ w ≠ b ∧ Earlier order b w := by
  unfold classify Earlier
  rcases nets.writers n with _ | ⟨w, _ | ⟨w', rest⟩⟩
  · simp
  · simp only [List.cons.injEq, and_true, exists_eq_left']
    cases order.idxOf? b with
    | none => simp
    | some r =>
      cases order.idxOf? w with
      | none => simp
      | some r' => simp
  · simp

/-- Every flow edge comes from a statement of its block between the two nets. -/
theorem Diagnostics.exists_site {nets : NetMap} {order : List BlockId}
    {sequential : List InferredEdge} {f : FlowEdge}
    (hf : f ∈ (Diagnostics.build nets order sequential).edges) :
    f.kind = classify nets (order.idxOf? ·) f.source f.block ∧
      ∃ e ∈ nets.edges, e.source = f.source ∧ e.target = f.target ∧
        ∃ site ∈ e.sites, site.block = f.block := by
  obtain ⟨e, he, hf⟩ := List.mem_flatMap.1 hf
  obtain ⟨b, hb, rfl⟩ := List.mem_map.1 hf
  obtain ⟨site, hsite, hblock⟩ := List.mem_map.1 (List.mem_eraseDups.1 hb)
  exact ⟨rfl, e, he, rfl, rfl, site, hsite, hblock⟩

section

variable {signals : SignalTable} {connections : List Connection} {x : Extraction} {nets : NetMap}
  {constraints : List Constraint} {s : Schedule}
  (hresolves : Resolves signals connections x nets) (hs : Schedules x nets constraints s)

include hresolves hs

/-- A reader runs before the writer of a net just if the edge between them is sequential. -/
theorem Schedules.earlier_iff {n : NetId} {w r : BlockId} (hw : w ∈ nets.writers n)
    (hr : r ∈ nets.readers n) (hne : w ≠ r) :
    Earlier s.order r w ↔ InferredEdge.infer x nets n w r ∈ s.sequential := by
  obtain ⟨access, -, t, -, ht⟩ := hresolves.mem_writers.1 hw
  have hinferred : InferredEdge.infer x nets n w r ∈ InferredEdge.inferAll x nets :=
    InferredEdge.mem_inferAll.2 ⟨n, w, r, hresolves.index_lt_size ht, hw, hr, hne, rfl⟩
  rw [hs.mem_sequential]
  constructor
  · refine fun hearlier => ⟨hinferred, by_contra fun hnochain => ?_⟩
    exact hearlier.asymm (hs.retained _ ((hs.mem_retained _).2 ⟨hinferred, hnochain⟩))
  · exact fun h => hs.earlier_of_chain h.2

/-- For a reader of a net the two classifications agree. -/
theorem Schedules.classify_iff {n : NetId} {r : BlockId} (hr : r ∈ nets.readers n) :
    classify nets (s.order.idxOf? ·) n r = .sequential ↔
      ∃ g ∈ s.sequential, g.reader = r ∧ g.net = n := by
  rw [classify_eq_sequential_iff]
  constructor
  · rintro ⟨w, hwriters, hne, hearlier⟩
    have hw : w ∈ nets.writers n := by
      rw [hwriters]
      exact List.mem_singleton_self w
    exact ⟨_, (hs.earlier_iff hresolves hw hr hne).1 hearlier, rfl, rfl⟩
  · rintro ⟨g, hg, rfl, rfl⟩
    obtain ⟨hinferred, hchain⟩ := (hs.mem_sequential g).1 hg
    obtain ⟨n, w, r, -, hw, -, hne, rfl⟩ := InferredEdge.mem_inferAll.1 hinferred
    refine ⟨w, ?_, hne, hs.earlier_of_chain hchain⟩
    refine eq_of_ascending (hresolves.writers_ascend n) (List.pairwise_singleton ..) fun b => ?_
    rw [List.mem_singleton]
    exact ⟨fun hb => hresolves.writer_unique hb hw, fun hb => hb ▸ hw⟩

end

namespace Design

variable {μ : Type} {d : Design μ} {config : SimConfig} {e : Elaboration}

/-- A block with a dependency between two nets is a reader of the first one. -/
theorem Stages.reader_of_edge (hd : d.Built) (he : d.Stages config e) {edge : NetEdge}
    (hedge : edge ∈ e.nets.edges) {site : DepSite} (hsite : site ∈ edge.sites) :
    site.block ∈ e.nets.readers edge.source := by
  obtain ⟨-, r, w, hr, -, hsite⟩ := he.resolves.exists_edge_iff.1 ⟨edge, hedge, rfl, rfl, hsite⟩
  obtain ⟨access, haccess, hread, -⟩ := access_of_site he.extract hd.nodup_liveBlocks hsite
  exact (he.resolves.mem_readers hd.forest).2
    ⟨access, haccess, r, hread, edge.source, hr, r, r, hr, hr, .inl rfl⟩

/-- **Classification.**  In an elaborated design the diagnostics call a dependency inside a block
sequential, by ranks, exactly when the block is the reader of a sequential edge for the net that the
dependency reads, by constraints. -/
theorem flow_kind_iff (hd : d.Built) (he : d.elaborate config = .ok e) {f : FlowEdge}
    (hf : f ∈ e.schedule.diagnostics.edges) :
    f.kind = .sequential ↔ ∃ g ∈ e.schedule.sequential, g.reader = f.block ∧ g.net = f.source := by
  have hstages := elaborate_eq_ok he
  rw [diagnostics_of_schedule hstages.schedule] at hf
  obtain ⟨hkind, edge, hedge, hsource, -, site, hsite, hblock⟩ := Diagnostics.exists_site hf
  have hreader := hstages.reader_of_edge hd hedge hsite
  rw [hsource, hblock] at hreader
  rw [hkind]
  exact (hstages.schedules hd).classify_iff hstages.resolves hreader

/-- Blocks 1 and 2 copy the count.  Block 2 is to run before the block that counts, and its
dependency is the sequential one. -/
theorem counting_flow : ∃ e, Simulator.counting.elaborate {} = .ok e ∧
    (∃ f ∈ e.schedule.diagnostics.edges, f.block = ⟨2⟩ ∧ f.kind = .sequential ∧
      ∃ g ∈ e.schedule.sequential, g.reader = f.block ∧ g.net = f.source) ∧
    ∃ f ∈ e.schedule.diagnostics.edges, f.block = ⟨1⟩ ∧ f.kind = .combinational ∧
      ¬ ∃ g ∈ e.schedule.sequential, g.reader = f.block ∧ g.net = f.source := by
  have hcheck : ((Simulator.counting.elaborate {}).toOption.any fun e =>
      (e.schedule.diagnostics.edges.any fun f =>
        decide (f.block = ⟨2⟩) && decide (f.kind = .sequential)) &&
      e.schedule.diagnostics.edges.any fun f =>
        decide (f.block = ⟨1⟩) && decide (f.kind = .combinational)) = true := by
    decide +kernel
  obtain ⟨e, he, hcheck⟩ := exists_ok_of_any hcheck
  simp only [Bool.and_eq_true, decide_eq_true_eq, List.any_eq_true] at hcheck
  obtain ⟨⟨f, hf, hblock, hkind⟩, f', hf', hblock', hkind'⟩ := hcheck
  have hd : Simulator.counting.Built := built_ofEdits _ _
  refine ⟨e, he, ⟨f, hf, hblock, hkind, (flow_kind_iff hd he hf).1 hkind⟩,
    f', hf', hblock', hkind', fun hedge => ?_⟩
  rw [(flow_kind_iff hd he hf').2 hedge] at hkind'
  cases hkind'

end Design

end Cyclewise
