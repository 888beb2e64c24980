import Cyclewise.Proofs.Block.Names
import Cyclewise.Proofs.Hierarchy.Calls
import Cyclewise.Proofs.Schedule.ClosedWalks
import Cyclewise.Proofs.Tick
import Cyclewise.Simulator

/-!
# Refusals that edits cannot lead to

Each stage of an elaboration looks up what the stage before it has left, and has a refusal for what
it does not find.  In a design that edits have made, blocks are always found: constraints join live
blocks (`Design.Built.constraint_ends`), inferred edges join analysed ones, and just the live blocks
are scheduled.  Connections are checked first, so a signal that is not found stands in the body of a
live block.  What is left of these refusals is in `Design.Refusals`.
-/

namespace Cyclewise

open Relation (TransGen)

/-! ## Scheduling -/

section Scheduling

variable {signals : SignalTable} {connections : List Connection} {x : Extraction} {nets : NetMap}
  {constraints : List Constraint} (h : Resolves signals connections x nets)
  (hconstraints : ∀ c ∈ constraints, c.before ∈ x.analyzed.keys ∧ c.after ∈ x.analyzed.keys)

include h hconstraints in
/-- Constraints between analysed blocks leave no block unknown. -/
theorem Resolves.schedule_ne_unknownBlock (reported : SignalTable) (b : BlockId) :
    schedule reported x nets constraints ≠ .error (.unknownBlock b) := by
  have hmem : ∀ {b}, b ∈ x.analyzed.keys → b ∈ ascendingBy BlockId.index x.analyzed.keys :=
    fun hb => mem_ascendingBy_block.2 hb
  obtain ⟨explicit, full, hgraphs⟩ := Schedule.exists_graphs
    (fun e he => (h.ends_inferAll he).imp hmem hmem)
    (fun c hc => (hconstraints c hc).imp hmem hmem)
  intro hs
  rcases schedule_outcome reported rfl hgraphs with
    ⟨-, cycles, hs'⟩ | ⟨-, -, cycles, hs'⟩ | ⟨-, -, s, hs', -⟩
  all_goals
    rw [hs'] at hs
    cases hs

/-- When constraints join different blocks, a refusal for their cycles reports on one. -/
theorem schedule_ne_constraintCycle_nil (reported : SignalTable)
    (hne : ∀ c ∈ constraints, c.before ≠ c.after) :
    schedule reported x nets constraints ≠ .error (.constraintCycle []) := by
  intro hs
  obtain ⟨nodes, hnodes, g, hg, hlevels, heq⟩ := exists_graph_of_constraintCycle hs
  exact reports_ne_nil hnodes hg hlevels (fun b hb => hne _ (precedes_nil.1 hb) rfl) heq.symm

end Scheduling

namespace Design

variable {μ : Type} {d : Design μ} {config : SimConfig}

/-! ## Elaboration -/

/-- Constraints join different live blocks. -/
theorem Built.constraint_ends (hd : d.Built) {c : Constraint}
    (hc : c ∈ d.hierarchy.flattened.constraints) : c.before ≠ c.after ∧
      (d.hierarchy.block? c.before).isSome ∧ (d.hierarchy.block? c.after).isSome := by
  rw [hd.hierarchy.flattened_eq] at hc
  obtain ⟨owner, howner⟩ := OrderedMap.mem_keys_iff.1 hc
  obtain ⟨hne, hbefore, hafter, -⟩ := hd.hierarchy.invariant.constraints.related howner
  unfold Hierarchy.block?
  rw [Option.isSome_map, Option.isSome_map]
  exact ⟨hne, hbefore, hafter⟩

/-- Analysed blocks access signals that stand in the body of a live block. -/
theorem Built.mem_names_of_extract (hd : d.Built) {x : Extraction}
    (hx : extract d.liveBlocks = .ok x) {b : BlockId} {access : BlockAccess}
    (haccess : x.access? b = some access) {s : SignalId}
    (hs : s ∈ access.reads ∨ s ∈ access.writes) :
    ∃ block, d.hierarchy.block? b = some block ∧ s ∈ Body.names block.body := by
  obtain ⟨block, hblock⟩ := Option.isSome_iff_exists.1
    ((hd.mem_keys_of_extract hx).1 (Extraction.mem_keys_of_access? haccess))
  have hlive := hd.mem_liveBlocks.2 hblock
  obtain ⟨a, ha⟩ := (extract_eq_ok hx).2 _ hlive
  have hfind := find?_of_extract hx hd.nodup_liveBlocks hlive ha
  unfold Extraction.access? at haccess
  rw [hfind, Option.map_some] at haccess
  obtain rfl := Option.some.inj haccess
  exact ⟨block, hblock, UpdateBlock.mem_names_of_analyze ha hs⟩

/-- Checked connections join declared signals. -/
theorem contains_of_validate (hd : d.validate = .ok ()) {c : Connection} (hc : c ∈ d.connections) :
    ∀ s ∈ [c.a, c.b], d.signals.contains s = true := by
  unfold validate at hd
  split at hd
  · cases hd
  · next hnone =>
    intro s hs
    have hdeclared := List.find?_eq_none.1 hnone s (List.mem_flatMap.2 ⟨c, hc, hs⟩)
    simpa using hdeclared

theorem resolve_eq_unknownSignal {signals : SignalTable} {connections : List Connection}
    {x : Extraction} {options : ResolveOptions} {s : SignalId}
    (h : resolve signals connections x options = .error (.unknownSignal s)) :
    s ∈ mentionedSignals connections x ∧ signals.contains s = false := by
  unfold resolve at h
  split at h
  · next t hfind =>
    obtain rfl := NetError.unknownSignal.inj (Except.error.inj h)
    exact ⟨List.mem_of_find?_eq_some hfind, by simpa using List.find?_some hfind⟩
  · simp only at h
    split at h
    · cases h
    · split at h <;> split at h <;> cases h

/-- A signal that is not found stands in the body of a live block. -/
theorem Built.exists_named_of_unknownSignal (hd : d.Built) {s : SignalId}
    (he : d.elaborate config = .error (.net (.unknownSignal s))) :
    d.signals.contains s = false ∧
      ∃ b block, d.hierarchy.block? b = some block ∧ s ∈ Body.names block.body := by
  cases elaborate_eq_error he with
  | @resolve _ x hvalid hx h =>
    obtain ⟨hmentioned, hundeclared⟩ := resolve_eq_unknownSignal h
    refine ⟨hundeclared, ?_⟩
    rcases List.mem_append.1 hmentioned with hs | hs
    · obtain ⟨c, hc, hs⟩ := List.mem_flatMap.1 hs
      rw [contains_of_validate hvalid hc s hs] at hundeclared
      cases hundeclared
    · obtain ⟨⟨b, access⟩, hb, hs⟩ := List.mem_flatMap.1 hs
      have hs' : s ∈ access.reads ∨ s ∈ access.writes :=
        (List.mem_append.1 hs).imp SignalSet.mem_toList.1 SignalSet.mem_toList.1
      exact ⟨b, hd.mem_names_of_extract hx (Extraction.mem_blocks.1 hb) hs'⟩

/-! ## Generation -/

/-- No block is live. -/
def Deserted (d : Design μ) : Prop := ∀ b, d.hierarchy.block? b = none

theorem compile_eq_generate {e : GenerateError} :
    d.compile config = .error (.generate e) ↔ ∃ el, d.elaborate config = .ok el ∧
      Tick.generate el.schedule d.hierarchy.block? config.mode el.revision = .error e := by
  simp only [compile, bind, Except.bind]
  cases hel : d.elaborate config with
  | error e' =>
    constructor
    · intro h
      obtain rfl := Except.error.inj h
      cases elaborate_eq_error hel
    · rintro ⟨el, hne, -⟩
      cases hne
  | ok el =>
    cases htick : Tick.generate el.schedule d.hierarchy.block? config.mode el.revision with
    | error e' => simp [Except.mapError, htick]
    | ok tick => simp [Except.mapError, htick, pure, Except.pure]

/-- A design that can be elaborated has a tick, unless no block is live. -/
theorem Built.compile_eq_generate_iff (hd : d.Built) {e : GenerateError} :
    d.compile config = .error (.generate e) ↔
      e = .emptySchedule ∧ (∃ el, d.elaborate config = .ok el) ∧ d.Deserted := by
  rw [compile_eq_generate]
  have hempty : ∀ el, d.elaborate config = .ok el →
      (Tick.generate el.schedule d.hierarchy.block? config.mode el.revision = .error e ↔
        e = .emptySchedule ∧ d.Deserted) := by
    intro el hel
    have hstages := elaborate_eq_ok hel
    rw [Tick.generate_eq_error_iff fun b hb => (hstages.mem_order hd).1 hb,
      List.eq_nil_iff_forall_not_mem]
    refine and_congr_right fun _ => forall_congr' fun b => ?_
    rw [hstages.mem_order hd, Option.not_isSome_iff_eq_none]
  constructor
  · rintro ⟨el, hel, hgenerate⟩
    obtain ⟨he, hdeserted⟩ := (hempty el hel).1 hgenerate
    exact ⟨he, ⟨el, hel⟩, hdeserted⟩
  · rintro ⟨he, ⟨el, hel⟩, hdeserted⟩
    exact ⟨el, hel, (hempty el hel).2 ⟨he, hdeserted⟩⟩

/-! ## What is left -/

/-- What is left of the refusals for something that is not found: no block is unknown, a constraint
cycle is reported, an unknown signal stands in the body of a live block, and no tick is made just
where no block is live. -/
structure Refusals (d : Design μ) (config : SimConfig) : Prop where
  unknownBlock : ∀ b, d.elaborate config ≠ .error (.schedule (.unknownBlock b))
  constraintCycle : d.elaborate config ≠ .error (.schedule (.constraintCycle []))
  unknownSignal : ∀ s, d.elaborate config = .error (.net (.unknownSignal s)) →
    d.signals.contains s = false ∧
      ∃ b block, d.hierarchy.block? b = some block ∧ s ∈ Body.names block.body
  new : ∀ memory e, Simulator.new d config memory = .error (.generate e) ↔
    e = .emptySchedule ∧ (∃ el, d.elaborate config = .ok el) ∧ d.Deserted
  reelaborate : ∀ sim : Simulator μ, sim.design = d → sim.config = config → ∀ e,
    sim.reelaborate.1 = .error (.generate e) ↔
      e = .emptySchedule ∧ (∃ el, d.elaborate config = .ok el) ∧ d.Deserted

/-- **Refusals.**  However a design was edited, components removed or added, elaboration finds every
block and every endpoint of a connection: it refuses an unknown signal only if the body of a live
block names it, it reports each constraint cycle that it refuses, and it leads to a tick unless no
block is live. -/
theorem Built.refusals (hd : d.Built) (config : SimConfig) : d.Refusals config where
  unknownBlock b he := by
    cases elaborate_eq_error he with
    | schedule hx hnets h =>
      refine (resolve_eq_ok hnets).schedule_ne_unknownBlock (fun c hc => ?_) d.signals b h
      obtain ⟨-, hbefore, hafter⟩ := hd.constraint_ends hc
      exact ⟨(hd.mem_keys_of_extract hx).2 hbefore, (hd.mem_keys_of_extract hx).2 hafter⟩
  constraintCycle he := by
    cases elaborate_eq_error he with
    | schedule _ _ h =>
      exact schedule_ne_constraintCycle_nil d.signals (fun c hc => (hd.constraint_ends hc).1) h
  unknownSignal _ he := hd.exists_named_of_unknownSignal he
  new memory e := by
    rw [← hd.compile_eq_generate_iff]
    simp only [Simulator.new, bind, Except.bind]
    cases d.compile config with
    | error e' => simp
    | ok p => simp [pure, Except.pure]
  reelaborate := by
    rintro sim rfl rfl e
    rw [← hd.compile_eq_generate_iff]
    unfold Simulator.reelaborate
    cases sim.design.compile sim.config with
    | error e' => simp
    | ok p => simp

/-- A component with two blocks in a given order was removed. -/
def deserted : Design Unit :=
  ofEdits "top"
    [.addComponent Hierarchy.top "unit", .declare "a" .wire "Bits8" ⟨1⟩,
      .declare "b" .wire "Bits8" ⟨1⟩, .registerBlock ⟨1⟩ (.copy "back" ⟨1⟩ ⟨0⟩),
      .registerBlock ⟨1⟩ (.copy "forth" ⟨0⟩ ⟨1⟩), .addConstraint ⟨1⟩ ⟨0⟩ ⟨1⟩, .connect ⟨0⟩ ⟨1⟩,
      .removeComponent ⟨1⟩]

/-- A block copies from a signal that nobody declared. -/
def dangling : Design Unit :=
  ofEdits "top" [.declare "a" .wire "Bits8" Hierarchy.top,
    .registerBlock Hierarchy.top (.copy "fetch" ⟨7⟩ ⟨0⟩)]

/-- A removed component leaves no constraint behind, but also nothing to run, and a signal that
nobody declared is named by the block that reads it. -/
theorem deserted_refusals :
    Simulator.new deserted {} () = .error (.generate .emptySchedule) ∧
      dangling.elaborate {} = .error (.net (.unknownSignal ⟨7⟩)) ∧
      ∃ b block, dangling.hierarchy.block? b = some block ∧ ⟨7⟩ ∈ Body.names block.body := by
  have hbuilt : deserted.Built := built_ofEdits "top" _
  have hel : (deserted.elaborate {}).toOption.any (fun _ => true) = true := by decide +kernel
  have hlive : deserted.liveBlocks.isEmpty = true := by decide +kernel
  have hrefused : (match dangling.elaborate {} with
      | .error e => decide (e = .net (.unknownSignal ⟨7⟩))
      | .ok _ => false) = true := by
    decide +kernel
  obtain ⟨el, hel, -⟩ := exists_ok_of_any hel
  have hdeserted : deserted.Deserted := fun b => by
    refine Option.eq_none_iff_forall_ne_some.2 fun block hblock => ?_
    have hmem := hbuilt.mem_liveBlocks.2 hblock
    rw [List.isEmpty_iff.1 hlive] at hmem
    cases hmem
  refine ⟨((hbuilt.refusals {}).new () _).2 ⟨rfl, ⟨el, hel⟩, hdeserted⟩, ?_⟩
  split at hrefused
  · next e he =>
    obtain rfl := of_decide_eq_true hrefused
    have hnamed := ((built_ofEdits "top" _ : dangling.Built).refusals {}).unknownSignal ⟨7⟩ he
    exact ⟨he, hnamed.2⟩
  · cases hrefused

end Design

end Cyclewise
