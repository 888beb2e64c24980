import Cyclewise.Block.Stock
import Cyclewise.Proofs.Ordering
import Cyclewise.Proofs.Simulator

/-!
# What a block reads in a cycle

A net has one writer at most, so within a completed cycle its value changes only while that block
runs.  A sequential edge puts the reader before the writer, and a retained edge puts it after: the
reader sees the value of the last cycle over the one, and the value of this cycle over the other
(`tick_reads`).
-/

namespace Cyclewise

namespace Simulator

variable {μ : Type} {s s' : Simulator μ}

/-- The traces of the blocks in the next cycle. -/
def log (s : Simulator μ) : List (BlockId × List Event) :=
  Step.log s.cycle s.tickProcedure.procedure.steps ⟨s.memory, s.store⟩

/-- In the next cycle every block writes signals of its own write set only. -/
def WritesDeclared (s : Simulator μ) : Prop :=
  ∀ b events, (b, events) ∈ s.log → ∀ a v r, Event.write a v r ∈ events →
    ∃ access, s.elaboration.extraction.access? b = some access ∧ a ∈ access.writes

/-- Whether an event of a block is no write, or one of a signal of its write set. -/
def declares (x : Extraction) (b : BlockId) : Event → Bool
  | .read _ _ => true
  | .write a _ _ => (x.access? b).any fun access => access.writes.contains a

theorem writesDeclared_iff : s.WritesDeclared ↔
    ∀ p ∈ s.log, ∀ ev ∈ p.2, declares s.elaboration.extraction p.1 ev = true := by
  constructor
  · intro hw p hp ev hev
    cases ev with
    | read a found => rfl
    | write a v r =>
      obtain ⟨access, haccess, ha⟩ := hw p.1 p.2 hp a v r hev
      exact (Option.any_eq_true ..).2 ⟨access, haccess, ha⟩
  · intro h b events hb a v r hev
    exact (Option.any_eq_true ..).1 (h (b, events) hb (.write a v r) hev)

instance (s : Simulator μ) : Decidable s.WritesDeclared :=
  decidable_of_iff _ writesDeclared_iff.symm

/-- In a completed cycle every scheduled block runs once, in order. -/
theorem map_fst_log (hs : s.Coherent) (h : s.tick = (.ok (), s')) :
    s.log.map Prod.fst = s.elaboration.schedule.order := by
  obtain ⟨d, config, he⟩ := hs.elaborated
  obtain ⟨-, -, m, hrun, -⟩ := tick_eq_ok h
  rw [← he.blocks]
  exact Step.map_fst_log hrun

/-- A block that is no writer of a net leaves it alone. -/
theorem avoids_of_not_writer (hs : s.Coherent) (hw : s.WritesDeclared) {b : BlockId}
    {events : List Event} (hb : (b, events) ∈ s.log) {n : NetId}
    (hn : b ∉ s.elaboration.nets.writers n) : Program.Avoids s.store n events := by
  obtain ⟨d, config, he⟩ := hs.elaborated
  intro a v r hwrite hnet
  obtain ⟨access, haccess, ha⟩ := hw b events hb a v r hwrite
  exact hn (he.stages.resolves.mem_writers.2
    ⟨access, haccess, a, ha, (hs.net?_eq a).symm.trans hnet⟩)

/-- The value of a declared signal can be read. -/
theorem exists_read? (hs : s.Coherent) {st : SignalStore} (hst : st.reset = s.store.reset)
    {t : SignalId} {n : NetId} (hn : s.elaboration.nets.net? t = some n) :
    ∃ v, st.read? t = some v := by
  obtain ⟨d, config, he⟩ := hs.elaborated
  have hnet : st.net? t = some n := by
    rw [SignalStore.net?_congr (SignalStore.netOf_of_reset hst), hs.net?_eq, hn]
  have hlt : n.index < st.cells.size := by
    rw [SignalStore.size_of_reset hst, hs.size_eq]
    exact he.stages.resolves.index_lt_size hn
  refine ⟨(st.cells[n.index]).value, ?_⟩
  rw [SignalStore.read?_eq, hnet, Option.bind_some, SignalStore.cell,
    Array.getElem?_eq_getElem hlt, Option.map_some]

/-- **Registers.**  In a completed cycle, what a block reads from a net that it does not write is
the value at the start of the cycle if nothing writes the net or the edge from its writer is
sequential, and the value at the end of the cycle if that edge is retained. -/
theorem tick_reads (hs : s.Reachable) (h : s.tick = (.ok (), s')) (hw : s.WritesDeclared)
    {r : BlockId} {events : List Event} (hr : (r, events) ∈ s.log) {access : BlockAccess}
    (haccess : s.elaboration.extraction.access? r = some access) {t : SignalId}
    (ht : t ∈ access.reads) :
    ∃ n, s.elaboration.nets.net? t = some n ∧ (r ∉ s.elaboration.nets.writers n →
      ∀ found, Event.read t found ∈ events →
        ((s.elaboration.nets.writers n = [] ∨
            ∃ e ∈ s.elaboration.schedule.sequential, e.reader = r ∧ e.net = n) →
          ∃ v, found = some v ∧ s.peek t = some v) ∧
        ((∃ e ∈ s.elaboration.schedule.retained, e.reader = r ∧ e.net = n) →
          ∃ v, found = some v ∧ s'.peek t = some v)) := by
  have hcoherent := hs.coherent
  obtain ⟨d, config, he⟩ := hcoherent.elaborated
  have hnets := he.stages.resolves
  have hschedule := he.stages.schedules he.built
  obtain ⟨n, hn⟩ := hnets.exists_net? (hnets.read_lt haccess ht)
  refine ⟨n, hn, fun hnr found hread => ?_⟩
  obtain ⟨-, -, m, hrun, hstore⟩ := tick_eq_ok h
  have hnodup : (s.tickProcedure.procedure.steps.map Step.block).Nodup :=
    he.blocks ▸ hschedule.nodup
  obtain ⟨hstart, hend⟩ := Step.read_of_log hrun hnodup hr
    (avoids_of_not_writer hcoherent hw hr hnr) ((hcoherent.net?_eq t).trans hn) hread
  rw [he.blocks] at hstart hend
  have hreset : m.signals.reset = s.store.reset := by
    have hrunReset := Step.runAll_reset s.cycle s.tickProcedure.procedure.steps ⟨s.memory, s.store⟩
    rwa [hrun] at hrunReset
  -- the net of an edge has the writer of the edge, and no other one
  have havoids : ∀ e ∈ InferredEdge.inferAll s.elaboration.extraction s.elaboration.nets,
      e.net = n → ∀ p ∈ s.log, p.1 ≠ e.writer → Program.Avoids s.store n p.2 := by
    rintro e hmem rfl p hp hne
    refine avoids_of_not_writer hcoherent hw hp fun hpwriter => hne ?_
    exact hnets.writer_unique hpwriter (InferredEdge.ends hmem).1
  constructor
  · intro hcase
    obtain ⟨v, hv⟩ := exists_read? hcoherent rfl hn
    refine ⟨v, (hstart fun p hp hearlier => ?_).trans hv, hv⟩
    rcases hcase with hnone | ⟨e, hmem, hreader, hnet⟩
    · refine avoids_of_not_writer hcoherent hw hp ?_
      rw [hnone]
      exact List.not_mem_nil
    · obtain ⟨hinferred, hchain⟩ := (hschedule.mem_sequential e).1 hmem
      refine havoids e hinferred hnet p hp fun heq => ?_
      have hlater := hschedule.earlier_of_chain hchain
      rw [hreader, ← heq] at hlater
      exact hearlier.asymm hlater
  · rintro ⟨e, hmem, hreader, hnet⟩
    obtain ⟨v, hv⟩ := exists_read? hcoherent hreset hn
    have hpeek : s'.peek t = some v := by
      show s'.store.read? t = some v
      rw [hstore]
      exact hv
    refine ⟨v, (hend fun p hp hearlier => ?_).trans hv, hpeek⟩
    refine havoids e ((hschedule.mem_retained e).1 hmem).1 hnet p hp fun heq => ?_
    have hlater := hschedule.retained e hmem
    rw [hreader, ← heq] at hlater
    exact hearlier.asymm hlater

/-- Block 0 counts signal 0 up, and blocks 1 and 2 copy it.  Block 2 is to run before block 0. -/
def counting : Design Unit :=
  Design.ofEdits "top"
    [.declare "count" .wire "Bits8" Hierarchy.top, .declare "now" .wire "Bits8" Hierarchy.top,
      .declare "last" .wire "Bits8" Hierarchy.top,
      .registerBlock Hierarchy.top (.increment "step" ⟨0⟩),
      .registerBlock Hierarchy.top (.copy "follow" ⟨0⟩ ⟨1⟩),
      .registerBlock Hierarchy.top (.copy "delay" ⟨0⟩ ⟨2⟩),
      .addConstraint Hierarchy.top ⟨2⟩ ⟨0⟩]

/-- Block 2 reads the count at the start of the cycle, and block 1 the count at its end. -/
theorem counting_tick : ∃ s s' : Simulator Unit, Simulator.new counting {} () = .ok s ∧
    s.tick = (.ok (), s') ∧ s.peek ⟨0⟩ = some 0 ∧ s'.peek ⟨0⟩ = some 1 := by
  have hcheck : (match Simulator.new counting {} () with
      | .ok s =>
        s.tick.1.isOk && decide s.WritesDeclared &&
        decide ((⟨2⟩, [.read ⟨0⟩ (some 0), .write ⟨2⟩ 0 true]) ∈ s.log) &&
        decide ((⟨1⟩, [.read ⟨0⟩ (some 1), .write ⟨1⟩ 1 true]) ∈ s.log) &&
        ([⟨1⟩, ⟨2⟩] : List BlockId).all (fun b =>
          (s.elaboration.extraction.access? b).any fun access => access.reads.contains ⟨0⟩) &&
        decide (s.elaboration.nets.net? ⟨0⟩ = some ⟨0⟩) &&
        decide (s.elaboration.nets.writers ⟨0⟩ = [⟨0⟩]) &&
        (s.elaboration.schedule.sequential.any fun e =>
          decide (e.reader = ⟨2⟩) && decide (e.net = ⟨0⟩)) &&
        (s.elaboration.schedule.retained.any fun e =>
          decide (e.reader = ⟨1⟩) && decide (e.net = ⟨0⟩))
      | .error _ => false) = true := by
    decide +kernel
  cases hnew : Simulator.new counting {} () with
  | error e =>
    rw [hnew] at hcheck
    cases hcheck
  | ok s =>
    rw [hnew] at hcheck
    simp only [Bool.and_eq_true, decide_eq_true_eq, List.any_eq_true, List.all_eq_true,
      Option.any_eq_true] at hcheck
    obtain ⟨⟨⟨⟨⟨⟨⟨⟨hok, hw⟩, hlog₂⟩, hlog₁⟩, hreads⟩, hnet⟩, hwriters⟩, hsequential⟩, hretained⟩ :=
      hcheck
    have hs : s.Reachable := .new (Design.built_ofEdits _ _) hnew
    obtain ⟨s', htick⟩ := exists_eq_ok hok
    have hnone : ∀ b : BlockId, b ≠ ⟨0⟩ → b ∉ s.elaboration.nets.writers ⟨0⟩ := by
      intro b hb
      rw [hwriters, List.mem_singleton]
      exact hb
    refine ⟨s, s', rfl, htick, ?_, ?_⟩
    · obtain ⟨access, haccess, hread⟩ := hreads ⟨2⟩ (by simp)
      obtain ⟨n, hn, h⟩ := tick_reads hs htick hw hlog₂ haccess hread
      obtain rfl : n = ⟨0⟩ := Option.some.inj (hn.symm.trans hnet)
      obtain ⟨v, hv, hpeek⟩ := (h (hnone _ (by decide)) (some 0) (by simp)).1 (.inr hsequential)
      rw [hpeek, hv]
    · obtain ⟨access, haccess, hread⟩ := hreads ⟨1⟩ (by simp)
      obtain ⟨n, hn, h⟩ := tick_reads hs htick hw hlog₁ haccess hread
      obtain rfl : n = ⟨0⟩ := Option.some.inj (hn.symm.trans hnet)
      obtain ⟨v, hv, hpeek⟩ := (h (hnone _ (by decide)) (some 1) (by simp)).2 hretained
      rw [hpeek, hv]

end Simulator

end Cyclewise
