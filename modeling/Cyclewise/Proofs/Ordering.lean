import Cyclewise.Block.Stock
import Cyclewise.Proofs.Elaboration

/-!
# Writers run before readers

In an elaborated design a block that writes a signal runs before every other block that reads
overlapping storage, unless constraints lead from the reader to the writer; then it runs after it
(`overlap_ordered`).  The proof follows the write and the read through extraction, nets, inferred
edges and levels.
-/

namespace Cyclewise

namespace Design

variable {μ : Type} {d : Design μ} {config : SimConfig} {e : Elaboration}

/-- The storage of two signals overlaps: some signal connected to the first one equals, is part of,
or is the whole of some signal connected to the second one. -/
def Overlaps (d : Design μ) (s t : SignalId) : Prop :=
  ∃ x y, Connected d.connections s x ∧ Connected d.connections t y ∧ d.signals.SharesStorage x y

namespace Stages

/-- Overlapping storage, seen in the nets of an elaboration. -/
theorem overlaps_iff (he : d.Stages config e) {s t : SignalId} (hs : s.index < d.signals.size)
    (ht : t.index < d.signals.size) :
    d.Overlaps s t ↔ ∃ n, e.nets.net? s = some n ∧ e.nets.Touches d.signals t n := by
  have hnets := he.resolves
  constructor
  · rintro ⟨x, y, hsx, hty, hxy⟩
    obtain ⟨n, hn⟩ := hnets.exists_net? hs
    obtain ⟨m, hm⟩ := hnets.exists_net? ht
    have hx : x.index < d.signals.size := by
      rcases hsx.eq_or_lt hnets.connection_lt with rfl | ⟨-, hx⟩
      · exact hs
      · exact hx
    have hy : y.index < d.signals.size := by
      rcases hty.eq_or_lt hnets.connection_lt with rfl | ⟨-, hy⟩
      · exact ht
      · exact hy
    have hxn : e.nets.net? x = some n := ((hnets.net?_eq_iff hs hx).2 hsx).symm.trans hn
    have hym : e.nets.net? y = some m := ((hnets.net?_eq_iff ht hy).2 hty).symm.trans hm
    exact ⟨n, hn, m, hm, y, x, hym, hxn, hxy.symm⟩
  · rintro ⟨n, hn, m, hm, y, x, hym, hxn, hyx⟩
    have hx : x.index < d.signals.size := hnets.lt_of_net? hxn
    have hy : y.index < d.signals.size := hnets.lt_of_net? hym
    exact ⟨x, y, (hnets.net?_eq_iff hs hx).1 (hn.trans hxn.symm),
      (hnets.net?_eq_iff ht hy).1 (hm.trans hym.symm), hyx.symm⟩

end Stages

/-- **Ordering.**  Of two live blocks, the one that writes a signal runs before the one that reads
overlapping storage, unless constraints lead from the reader to the writer; then the reader runs
first. -/
theorem overlap_ordered (hd : d.Built) (he : d.elaborate config = .ok e) {w r : BlockId}
    (hwr : w ≠ r) {writer reader : UpdateBlock μ} (hw : d.hierarchy.block? w = some writer)
    (hr : d.hierarchy.block? r = some reader) {aw ar : BlockAnalysis}
    (haw : writer.analyze = .ok aw) (har : reader.analyze = .ok ar) {s t : SignalId}
    (hs : s ∈ aw.access.writes) (ht : t ∈ ar.access.reads) (hst : d.Overlaps s t) :
    (¬ Chain d.hierarchy.constraints.keys r w →
      ∃ i j, e.schedule.rank? w = some i ∧ e.schedule.rank? r = some j ∧ i < j) ∧
    (Chain d.hierarchy.constraints.keys r w →
      ∃ i j, e.schedule.rank? r = some i ∧ e.schedule.rank? w = some j ∧ i < j) := by
  have hstages := elaborate_eq_ok he
  have hnets := hstages.resolves
  have hschedule := hstages.schedules hd
  have hwaccess := hstages.access?_eq hd hw haw
  have hraccess := hstages.access?_eq hd hr har
  refine ⟨fun hchain => ?_, hschedule.earlier_of_chain⟩
  -- the write and the read meet in the net of `s`
  obtain ⟨n, hn, htouch⟩ := (hstages.overlaps_iff (hnets.write_lt hwaccess hs)
    (hnets.read_lt hraccess ht)).1 hst
  have hwriter : w ∈ e.nets.writers n := hnets.mem_writers.2 ⟨_, hwaccess, s, hs, hn⟩
  have hreader : r ∈ e.nets.readers n :=
    (hnets.mem_readers hd.forest).2 ⟨_, hraccess, t, ht, htouch⟩
  have hedge : InferredEdge.infer e.extraction e.nets n w r ∈
      InferredEdge.inferAll e.extraction e.nets :=
    InferredEdge.mem_inferAll.2 ⟨n, w, r, hnets.index_lt_size hn, hwriter, hreader, hwr, rfl⟩
  exact hschedule.retained _ ((hschedule.mem_retained _).2 ⟨hedge, hchain⟩)

/-- A live block with access sets that satisfy a test. -/
theorem exists_access (d : Design μ) (b : BlockId) (p : BlockAccess → Bool)
    (h : ((d.hierarchy.block? b).any fun block =>
      match block.analyze with
      | .ok a => p a.access
      | .error _ => false) = true) :
    ∃ block a, d.hierarchy.block? b = some block ∧ block.analyze = .ok a ∧ p a.access = true := by
  obtain ⟨block, hblock, h⟩ := (Option.any_eq_true ..).1 h
  split at h
  · next a ha => exact ⟨block, a, hblock, ha, h⟩
  · cases h

/-- Block 0 drives signal 2, which is connected to the part 1 of signal 0.  Blocks 1 and 2 read
signal 0, and block 2 is to run before block 0. -/
def element : Design Unit :=
  ofEdits "top"
    [.declare "a" .wire "Bits8" Hierarchy.top, .declareChild ⟨0⟩ "[0]" "Bits1",
      .declare "b" .wire "Bits1" Hierarchy.top, .connect ⟨1⟩ ⟨2⟩,
      .declare "c" .wire "Bits8" Hierarchy.top, .declare "d" .wire "Bits8" Hierarchy.top,
      .registerBlock Hierarchy.top (.constant "drive" ⟨2⟩ 1),
      .registerBlock Hierarchy.top (.copy "observe" ⟨0⟩ ⟨3⟩),
      .registerBlock Hierarchy.top (.copy "sample" ⟨0⟩ ⟨4⟩),
      .addConstraint Hierarchy.top ⟨2⟩ ⟨0⟩]

theorem element_ordered : ∃ e, element.elaborate {} = .ok e ∧
    (∃ i j, e.schedule.rank? ⟨0⟩ = some i ∧ e.schedule.rank? ⟨1⟩ = some j ∧ i < j) ∧
    ∃ i j, e.schedule.rank? ⟨2⟩ = some i ∧ e.schedule.rank? ⟨0⟩ = some j ∧ i < j := by
  have hok : (element.elaborate {}).isOk = true := by decide +kernel
  have hkeys : element.hierarchy.constraints.keys = [⟨⟨2⟩, ⟨0⟩⟩] := by decide +kernel
  have hparent : element.signals.parent? ⟨1⟩ = some ⟨0⟩ := by decide +kernel
  have hconnection : ⟨⟨1⟩, ⟨2⟩⟩ ∈ element.connections := by decide +kernel
  obtain ⟨drive, ad, hdrive, had, hwrite⟩ :=
    exists_access element ⟨0⟩ (fun access => access.writes.contains ⟨2⟩) (by decide +kernel)
  obtain ⟨observe, ao, hobserve, hao, hread⟩ :=
    exists_access element ⟨1⟩ (fun access => access.reads.contains ⟨0⟩) (by decide +kernel)
  obtain ⟨sample, as, hsample, has, hread'⟩ :=
    exists_access element ⟨2⟩ (fun access => access.reads.contains ⟨0⟩) (by decide +kernel)
  have hoverlap : element.Overlaps ⟨2⟩ ⟨0⟩ :=
    ⟨⟨1⟩, ⟨0⟩, .symm _ _ (.rel _ _ hconnection), .refl _, .inr (.inl (.single hparent))⟩
  have hnochain : ¬ Chain element.hierarchy.constraints.keys ⟨1⟩ ⟨0⟩ := by
    intro h
    obtain ⟨b, hb, -⟩ := Relation.TransGen.head'_iff.1 h
    rw [hkeys] at hb
    simp at hb
  have hchain : Chain element.hierarchy.constraints.keys ⟨2⟩ ⟨0⟩ :=
    .single (hkeys ▸ List.mem_singleton_self _)
  cases he : element.elaborate {} with
  | error err => rw [he] at hok; cases hok
  | ok e =>
    have hd : element.Built := built_ofEdits ..
    refine ⟨e, rfl, ?_, ?_⟩
    · exact (overlap_ordered hd he (by decide) hdrive hobserve had hao hwrite hread hoverlap).1
        hnochain
    · exact (overlap_ordered hd he (by decide) hdrive hsample had has hwrite hread' hoverlap).2
        hchain

end Design

end Cyclewise
