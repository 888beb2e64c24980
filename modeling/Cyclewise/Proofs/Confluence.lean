import Cyclewise.Proofs.Commute
import Cyclewise.Proofs.Ordering

/-!
# Other orders of a schedule

The order of a schedule is one of many that respect the constraints and the retained edges.  Blocks
that may stand in either order use no net that the other one writes: a net has one writer, and the
edge from it to a reader is retained unless constraints lead back.  So all these orders do the same
to a store (`runAll_confluent`), among them those that differ inside batches only.
-/

namespace Cyclewise

/-- An order holds the scheduled blocks and respects the constraints and the retained edges. -/
structure Schedule.Admits (s : Schedule) (constraints : List Constraint) (order : List BlockId) :
    Prop where
  perm : order.Perm s.order
  constraint : ∀ c ∈ constraints, Earlier order c.before c.after
  retained : ∀ e ∈ s.retained, Earlier order e.writer e.reader

/-- The first block may run before the second one. -/
def Schedule.MayPrecede (s : Schedule) (constraints : List Constraint) (a b : BlockId) : Prop :=
  a ≠ b ∧ ¬ Chain constraints b a ∧ ∀ e ∈ s.retained, ¬ (e.writer = b ∧ e.reader = a)

namespace Schedule.Admits

variable {s : Schedule} {constraints : List Constraint} {order : List BlockId}

/-- In an admitted order, blocks run before others only if they may. -/
theorem pairwise (h : s.Admits constraints order) (hnodup : s.order.Nodup) :
    order.Pairwise (s.MayPrecede constraints) := by
  have hnodup' : order.Nodup := h.perm.symm.nodup hnodup
  rw [List.pairwise_iff_getElem]
  intro i j hi hj hij
  have hearlier : Earlier order order[i] order[j] := by
    refine ⟨i, j, ?_, ?_, hij⟩
    · exact (idxOf?_eq_some_iff_getElem? hnodup').2 (List.getElem?_eq_getElem hi)
    · exact (idxOf?_eq_some_iff_getElem? hnodup').2 (List.getElem?_eq_getElem hj)
  refine ⟨hearlier.ne, fun hchain => hearlier.asymm (hchain.earlier h.constraint), ?_⟩
  rintro e he ⟨hwriter, hreader⟩
  have hlater := h.retained e he
  rw [hwriter, hreader] at hlater
  exact hearlier.asymm hlater

end Schedule.Admits

namespace Schedules

variable {x : Extraction} {nets : NetMap} {constraints : List Constraint} {s : Schedule}
  (h : Schedules x nets constraints s)

include h

theorem admits_order : s.Admits constraints s.order :=
  ⟨.refl _, h.constraint, h.retained⟩

/-- Batches may be reordered, each for itself. -/
theorem admits_flatten {batches : List (List BlockId)}
    (hbatches : List.Forall₂ List.Perm batches s.batches) :
    s.Admits constraints batches.flatten := by
  have hperm : batches.flatten.Perm s.order := List.Perm.flatten_congr hbatches
  have hnodup : batches.flatten.Nodup := hperm.symm.nodup h.nodup
  refine ⟨hperm, fun c hc => ?_, fun e he => ?_⟩
  · exact ((h.lower_of_constraint c hc).of_forall₂_perm hbatches).earlier hnodup
  · exact ((h.lower_of_retained e he).of_forall₂_perm hbatches).earlier hnodup

/-- Of two blocks that may run in either order, neither writes a net that the other one uses. -/
theorem clear {signals : SignalTable} {connections : List Connection}
    (hnets : Resolves signals connections x nets) {a b : BlockId}
    (hab : s.MayPrecede constraints a b) (hba : s.MayPrecede constraints b a) :
    nets.Clear a b := by
  obtain ⟨hne, hchain, -⟩ := hab
  obtain ⟨-, -, hedge⟩ := hba
  rintro n hwriter (hreader | hwriter')
  · obtain ⟨access, -, t, -, hn⟩ := hnets.mem_writers.1 hwriter
    have hinferred : InferredEdge.infer x nets n a b ∈ InferredEdge.inferAll x nets :=
      InferredEdge.mem_inferAll.2 ⟨n, a, b, hnets.index_lt_size hn, hwriter, hreader, hne, rfl⟩
    exact hedge _ ((h.mem_retained _).2 ⟨hinferred, hchain⟩) ⟨rfl, rfl⟩
  · exact hne (hnets.writer_unique hwriter hwriter')

end Schedules

namespace Design

variable {μ : Type} {d : Design μ} {config : SimConfig} {e : Elaboration}

/-- Live blocks read and write the signals that their analysis tells, and what they do depends on
the values read, the block and the cycle only. -/
structure Behaved (d : Design μ) : Prop where
  confined : ∀ b block a, d.hierarchy.block? b = some block → block.analyze = .ok a →
    block.behavior.Confined b a.access
  memoryless : ∀ b block, d.hierarchy.block? b = some block → block.behavior.Memoryless b

/-- The steps of an elaborated design stay within the nets of their blocks. -/
theorem Stages.declared (hd : d.Built) (he : d.Stages config e) (hb : d.Behaved)
    {order : List BlockId} {s : Step μ} (hs : s ∈ Tick.stepsOf d.hierarchy.block? order) :
    s.Declared e.nets := by
  obtain ⟨-, block, hblock, hs⟩ := Tick.mem_stepsOf.1 hs
  obtain ⟨a, ha⟩ := (extract_eq_ok he.extract).2 _ (hd.mem_liveBlocks.2 hblock)
  have haccess := he.access?_eq hd hblock ha
  intro cycle m ev hev
  rw [hs] at hev
  have hwithin := hb.confined _ _ _ hblock ha cycle m.memory m.signals ev hev
  cases ev with
  | read t found =>
    intro n hn
    refine (he.resolves.mem_readers hd.forest).2 ⟨_, haccess, t, hwithin, n, hn, t, t, hn, hn, ?_⟩
    exact .inl rfl
  | write t v accepted =>
    intro n hn
    exact he.resolves.mem_writers.2 ⟨_, haccess, t, hwithin, hn⟩

theorem Stages.isSome_block? (hd : d.Built) (he : d.Stages config e) {order : List BlockId}
    (hperm : order.Perm e.schedule.order) : ∀ b ∈ order, (d.hierarchy.block? b).isSome := by
  intro b hb
  exact (he.mem_order hd).1 (hperm.mem_iff.1 hb)

/-- Steps of an order stand as their blocks do. -/
theorem pairwise_stepsOf {block? : BlockId → Option (UpdateBlock μ)} {order : List BlockId}
    {R : BlockId → BlockId → Prop} (hall : ∀ b ∈ order, (block? b).isSome)
    (h : order.Pairwise R) : (Tick.stepsOf block? order).Pairwise fun s t => R s.block t.block := by
  rw [← Tick.map_block_stepsOf hall] at h
  exact List.pairwise_map.1 h

theorem Stages.runAll_of_admits (hd : d.Built) (he : d.Stages config e) (hb : d.Behaved)
    {cycle : Nat} {m m' : Machine μ SignalStore} (hm : m.signals.netOf = e.nets.netOf)
    (h : Step.runAll cycle (Tick.stepsOf d.hierarchy.block? e.schedule.order) m = (.ok (), m'))
    {order : List BlockId} (horder : e.schedule.Admits d.hierarchy.constraints.keys order) :
    ∃ memory, Step.runAll cycle (Tick.stepsOf d.hierarchy.block? order) m =
      (.ok (), ⟨memory, m'.signals⟩) := by
  have hschedule := he.schedules hd
  have hpairwise := hschedule.admits_order.pairwise hschedule.nodup
  have hsteps := pairwise_stepsOf (he.isSome_block? hd (.refl _)) hpairwise
  have hsteps' := pairwise_stepsOf (he.isSome_block? hd horder.perm)
    (horder.pairwise hschedule.nodup)
  have hperm : (Tick.stepsOf d.hierarchy.block? order).Perm
      (Tick.stepsOf d.hierarchy.block? e.schedule.order) := horder.perm.filterMap _
  have hcompletes := Step.completes_of_perm hperm hsteps hsteps'
    (fun s hs => he.declared hd hb hs)
    (fun s _ t _ hst hts => hschedule.clear he.resolves hst hts) hm (Step.completes_of_runAll h)
  refine Step.runAll_of_completes (fun s hs => ?_) hcompletes m.memory
  obtain ⟨-, block, hblock, hs⟩ := Tick.mem_stepsOf.1 hs
  rw [hs]
  exact hb.memoryless _ _ hblock

/-- **Confluence.**  If a cycle succeeds in the order of the schedule, then it succeeds with the
same store in every order of the scheduled blocks that respects the constraints and the retained
edges, and so it does when batches are reordered, each for itself. -/
theorem runAll_confluent (hd : d.Built) (he : d.elaborate config = .ok e) (hb : d.Behaved)
    {cycle : Nat} {m m' : Machine μ SignalStore} (hm : m.signals.netOf = e.nets.netOf)
    (h : Step.runAll cycle (Tick.stepsOf d.hierarchy.block? e.schedule.order) m = (.ok (), m')) :
    (∀ order, e.schedule.Admits d.hierarchy.constraints.keys order →
      ∃ memory, Step.runAll cycle (Tick.stepsOf d.hierarchy.block? order) m =
        (.ok (), ⟨memory, m'.signals⟩)) ∧
    ∀ batches, List.Forall₂ List.Perm batches e.schedule.batches →
      ∃ memory, Step.runAll cycle (Tick.stepsOf d.hierarchy.block? batches.flatten) m =
        (.ok (), ⟨memory, m'.signals⟩) := by
  have hstages := elaborate_eq_ok he
  constructor
  · intro order horder
    exact hstages.runAll_of_admits hd hb hm h horder
  · intro batches hbatches
    have hadmits := (hstages.schedules hd).admits_flatten hbatches
    exact hstages.runAll_of_admits hd hb hm h hadmits

/-- Block 0 counts signal 0 up, and blocks 1 and 2 copy it. -/
def fanout : Design Unit :=
  ofEdits "top"
    [.declare "count" .wire "Bits8" Hierarchy.top, .declare "a" .wire "Bits8" Hierarchy.top,
      .declare "b" .wire "Bits8" Hierarchy.top,
      .registerBlock Hierarchy.top (.increment "step" ⟨0⟩),
      .registerBlock Hierarchy.top (.copy "first" ⟨0⟩ ⟨1⟩),
      .registerBlock Hierarchy.top (.copy "second" ⟨0⟩ ⟨2⟩)]

theorem fanout_behaved : fanout.Behaved := by
  have hblocks : fanout.hierarchy.blocks.map BlockEntry.block =
      #[.increment "step" ⟨0⟩, .copy "first" ⟨0⟩ ⟨1⟩, .copy "second" ⟨0⟩ ⟨2⟩] := by
    cbv
  have hcases : ∀ b block, fanout.hierarchy.block? b = some block →
      block = .increment "step" ⟨0⟩ ∨ ∃ name dst, block = .copy name ⟨0⟩ dst := by
    intro b block h
    have hmem := Hierarchy.mem_of_block? h
    rw [hblocks] at hmem
    simp only [List.mem_toArray, List.mem_cons, List.not_mem_nil, or_false] at hmem
    rcases hmem with h | h | h
    · exact .inl h
    · exact .inr ⟨_, _, h⟩
    · exact .inr ⟨_, _, h⟩
  constructor
  · intro b block a h ha
    rcases hcases b block h with rfl | ⟨name, dst, rfl⟩
    · exact UpdateBlock.confined_increment ha
    · exact UpdateBlock.confined_copy ha
  · intro b block h
    rcases hcases b block h with rfl | ⟨name, dst, rfl⟩
    · exact UpdateBlock.memoryless_ofAssignment
    · exact UpdateBlock.memoryless_ofAssignment

/-- The copies may change places. -/
theorem fanout_confluent : ∃ e, fanout.elaborate {} = .ok e ∧
    e.schedule.batches = [[⟨0⟩], [⟨1⟩, ⟨2⟩]] ∧
    ∃ m m' : Machine Unit SignalStore,
      Step.runAll 0 (Tick.stepsOf fanout.hierarchy.block? [⟨0⟩, ⟨1⟩, ⟨2⟩])
        ⟨(), SignalStore.ofNets e.nets⟩ = (.ok (), m) ∧
      Step.runAll 0 (Tick.stepsOf fanout.hierarchy.block? [⟨0⟩, ⟨2⟩, ⟨1⟩])
        ⟨(), SignalStore.ofNets e.nets⟩ = (.ok (), m') ∧ m'.signals = m.signals := by
  have hcheck : (match fanout.elaborate {} with
      | .ok e => decide (e.schedule.batches = [[⟨0⟩], [⟨1⟩, ⟨2⟩]]) &&
        (Step.runAll 0 (Tick.stepsOf fanout.hierarchy.block? e.schedule.order)
          ⟨(), SignalStore.ofNets e.nets⟩).1.isOk
      | .error _ => false) = true := by
    decide +kernel
  cases he : fanout.elaborate {} with
  | error err => rw [he] at hcheck; cases hcheck
  | ok e =>
    rw [he] at hcheck
    simp only [Bool.and_eq_true, decide_eq_true_eq] at hcheck
    obtain ⟨hbatches, hok⟩ := hcheck
    obtain ⟨m, hm⟩ := exists_eq_ok hok
    have hforall : List.Forall₂ List.Perm [[⟨0⟩], [⟨2⟩, ⟨1⟩]] e.schedule.batches := by
      rw [hbatches]
      exact .cons (.refl _) (.cons (List.Perm.swap ..) .nil)
    obtain ⟨memory, hswapped⟩ := (runAll_confluent (built_ofEdits ..) he fanout_behaved rfl hm).2
      [[⟨0⟩], [⟨2⟩, ⟨1⟩]] hforall
    unfold Schedule.order at hm
    rw [hbatches] at hm
    exact ⟨e, rfl, hbatches, m, ⟨memory, m.signals⟩, hm, hswapped, rfl⟩

end Design

end Cyclewise
