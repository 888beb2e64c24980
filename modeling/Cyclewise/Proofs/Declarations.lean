import Cyclewise.Proofs.Carry
import Cyclewise.Proofs.Net.Extension
import Cyclewise.Proofs.Restart
import Cyclewise.Proofs.Schedule.Reordering

/-!
# Declarations do not disturb

Declaring signals makes a tick stale, but that is all.  A new signal is written by no block, so an
elaboration infers the same edges as before (`Resolves.inferAll_extend`) and puts the blocks in the
same order (`Design.exists_compile_extend`).  The signals from before keep their nets and with them
their values (`Simulator.declarations_inert`).
-/

namespace Cyclewise

/-! ## Inferred edges -/

/-- What is found at a site, the block of the site reads and writes. -/
def Extraction.Grounded (x : Extraction) : Prop := ∀ {r w site}, site ∈ x.sites r w →
  ∃ access, x.access? site.block = some access ∧ r ∈ access.reads ∧ w ∈ access.writes

namespace Resolves

variable {signals signals' : SignalTable} {connections : List Connection} {x : Extraction}
  {nets nets' : NetMap} (h : Resolves signals connections x nets)
  (h' : Resolves signals' connections x nets') (hext : signals'.Extends signals)
  {n : NetId}

include h h' hext

section

variable (hx : x.Grounded)

include hx

/-- The signals at a site are from before. -/
theorem net?_site {r w : SignalId} {site : DepSite} (hsite : site ∈ x.sites r w) :
    nets'.net? r = nets.net? r ∧ nets'.net? w = nets.net? w := by
  obtain ⟨access, haccess, hr, hw⟩ := hx hsite
  exact ⟨h.net?_extend h' hext (h.read_lt haccess hr),
    h.net?_extend h' hext (h.write_lt haccess hw)⟩

theorem sites_extend {m : NetId} {site : DepSite} :
    (∃ r w, nets'.net? r = some n ∧ nets'.net? w = some m ∧ site ∈ x.sites r w) ↔
      ∃ r w, nets.net? r = some n ∧ nets.net? w = some m ∧ site ∈ x.sites r w := by
  refine exists_congr fun r => exists_congr fun w => ?_
  rw [← and_assoc, ← and_assoc]
  refine and_congr_left fun hsite => ?_
  obtain ⟨hr, hw⟩ := h.net?_site h' hext hx hsite
  rw [hr, hw]

theorem infer_extend (hn : n.index < nets.size) (w r : BlockId) :
    InferredEdge.infer x nets' n w r = InferredEdge.infer x nets n w r := by
  have hsites : ∀ site, site ∈ nets'.writeSites w n ++ nets'.readSites r n ↔
      site ∈ nets.writeSites w n ++ nets.readSites r n := by
    intro site
    rw [List.mem_append, List.mem_append, h.mem_writeSites, h'.mem_writeSites, h.mem_readSites,
      h'.mem_readSites]
    simp only [h.sites_extend h' hext hx]
  unfold InferredEdge.infer
  rw [h.members_extend h' hext hn, DepSite.sort_congr hsites]

/-- No edge leads over a net of a new signal, as nobody writes it. -/
theorem inferAll_extend (hf : signals.Forest) (hf' : signals'.Forest) :
    InferredEdge.inferAll x nets' = InferredEdge.inferAll x nets := by
  obtain ⟨k, hk⟩ := Nat.exists_eq_add_of_le (h.size_extend h' hext)
  unfold InferredEdge.inferAll NetMap.ids
  rw [hk, List.range_add, List.map_append, List.flatMap_append]
  refine (congrArg₂ _ ?_ ?_).trans (List.append_nil _)
  · refine List.flatMap_congr fun n hn => ?_
    obtain ⟨i, hi, rfl⟩ := List.mem_map.1 hn
    have hlt : (⟨i⟩ : NetId).index < nets.size := List.mem_range.1 hi
    rw [h.writers_extend h' hext, h.readers_extend h' hext hf hf' hlt]
    simp only [h.infer_extend h' hext hx hlt]
  · -- the nets that are new have no writer
    refine List.flatMap_eq_nil_iff.2 fun n hn => ?_
    simp only [List.mem_map, List.mem_range] at hn
    obtain ⟨-, ⟨i, -, rfl⟩, rfl⟩ := hn
    have hnone : nets.writers ⟨nets.size + i⟩ = [] := by
      unfold NetMap.writers
      rw [NetMap.get_of_le (Nat.le_add_right _ _)]
      rfl
    rw [h.writers_extend h' hext, hnone, List.flatMap_nil]

end

end Resolves

/-! ## Elaboration -/

/-- Two elaborations of the same blocks put them in one order, with the same edges. -/
structure Elaboration.SameOrder (e e' : Elaboration) : Prop where
  extraction : e'.extraction = e.extraction
  batches : e'.schedule.batches = e.schedule.batches
  retained : e'.schedule.retained = e.schedule.retained
  sequential : e'.schedule.sequential = e.schedule.sequential

theorem Elaboration.SameOrder.order {e e' : Elaboration} (h : e.SameOrder e') :
    e'.schedule.order = e.schedule.order := congrArg List.flatten h.batches

namespace Design

variable {μ : Type} {d : Design μ} {config : SimConfig} {e : Elaboration} {signals : SignalTable}
  (hd : d.Built) (hforest : signals.Forest) (hext : signals.Extends d.signals)
  (hdeny : config.denyUndriven = false)

include hd hforest hext hdeny

/-- With more declarations every stage succeeds as before. -/
theorem exists_stages_extend (he : d.Stages config e) :
    ∃ e', { d with signals }.Stages config e' ∧ e.SameOrder e' := by
  have hground : e.extraction.Grounded := access_of_site he.extract hd.nodup_liveBlocks
  obtain ⟨nets', hnets'⟩ :=
    exists_resolve_extend he.resolves hd.forest hforest hext Hierarchy.top
  have hedges := he.resolves.inferAll_extend (resolve_eq_ok hnets') hext hground hd.forest hforest
  obtain ⟨s', hs', hbatches, hretained, hsequential⟩ :=
    exists_schedule_of_edges (fun _ _ => Iff.rfl) (fun _ => Iff.rfl) hedges signals he.schedule
  rw [← hdeny] at hnets'
  exact ⟨⟨e.extraction, nets', s', { d with signals }.revision⟩,
    ⟨he.extract, hnets', hs', rfl⟩, ⟨rfl, hbatches, hretained, hsequential⟩⟩

/-- So the design can be run as before, by a tick that does the same. -/
theorem exists_compile_extend {tick : Tick μ} (h : d.compile config = .ok (e, tick)) :
    ∃ e', { d with signals }.compile config = .ok (e', { tick with revision := e'.revision }) ∧
      { d with signals }.Stages config e' ∧ e.SameOrder e' := by
  obtain ⟨helaborate, hgenerate⟩ := compile_eq_ok h
  obtain ⟨e', he', hsame⟩ :=
    exists_stages_extend hd hforest hext hdeny (elaborate_eq_ok helaborate)
  have hconfig : config.validate = .ok () := by
    unfold SimConfig.validate
    rw [if_neg (Nat.ne_of_gt (Simulator.maxCycles_of_compile h))]
  have hvalid : { d with signals }.validate = .ok () :=
    validate_of_declared he'.resolves.connection_lt
  have hgenerate' : Tick.generate e'.schedule d.hierarchy.block? config.mode e'.revision =
      .ok { tick with revision := e'.revision } := by
    rw [Tick.generate_of_order hsame.order config.mode e.revision, hgenerate]
    rfl
  refine ⟨e', ?_, he', hsame⟩
  unfold compile
  rw [he'.elaborate_eq hconfig hvalid]
  simp only [bind, Except.bind, hgenerate']
  rfl

end Design

/-! ## Declaring -/

/-- The edit is to declare a signal. -/
def Edit.declares {μ : Type} : Edit μ → Bool
  | .declare .. | .declareChild .. => true
  | _ => false

namespace Simulator

variable {μ : Type} {s u : Simulator μ} {d : Design μ}

/-- A declaration changes the signal table only, and if it is refused not even that. -/
theorem edit_declares {e : Edit μ} (he : e.declares = true) (s : Simulator μ)
    (h : d.Reworked s.design) :
    ∃ signals, (s.edit e).2 = { s with design.signals := signals } ∧
      d.Reworked { s.design with signals } := by
  have hdeclared : ∀ {result d'}, s.design.apply e = .ok (result, d') →
      ∃ signals, d' = { s.design with signals } := by
    intro result d' happly
    cases e with
    | declare path kind typeName owner =>
      obtain ⟨-, signals, -, rfl⟩ := Design.withSignal_eq_ok happly
      exact ⟨signals, rfl⟩
    | declareChild parent suffix typeName =>
      obtain ⟨-, signals, -, rfl⟩ := Design.withSignal_eq_ok happly
      exact ⟨signals, rfl⟩
    | _ => cases he
  unfold edit
  split
  · next result d' happly =>
    obtain ⟨signals, rfl⟩ := hdeclared happly
    exact ⟨signals, rfl, h.apply happly⟩
  · exact ⟨s.design.signals, rfl, h⟩

theorem performAll_declares {edits : List (Edit μ)} (hedits : ∀ e ∈ edits, e.declares = true)
    (s : Simulator μ) (h : d.Reworked s.design) :
    ∃ signals, (s.performAll (edits.map .edit)).2 = { s with design.signals := signals } ∧
      d.Reworked { s.design with signals } := by
  induction edits generalizing s with
  | nil => exact ⟨s.design.signals, rfl, h⟩
  | cons e rest ih =>
    rw [List.forall_mem_cons] at hedits
    obtain ⟨signals, heq, hrework⟩ := edit_declares hedits.1 s h
    have hstep : (s.performAll ((e :: rest).map .edit)).2 =
        ((s.edit e).2.performAll (rest.map .edit)).2 := rfl
    rw [hstep, heq]
    exact ih hedits.2 _ hrework

/-- What becomes of a simulator `s` when signals are declared and the design is elaborated anew, `u`
being the simulator after that. -/
structure Enlarged (s u : Simulator μ) : Prop where
  /-- A cycle runs the same steps. -/
  procedure : u.tickProcedure.procedure = s.tickProcedure.procedure
  order : u.elaboration.schedule.order = s.elaboration.schedule.order
  batches : u.elaboration.schedule.batches = s.elaboration.schedule.batches
  retained : u.elaboration.schedule.retained = s.elaboration.schedule.retained
  sequential : u.elaboration.schedule.sequential = s.elaboration.schedule.sequential
  /-- The signals from before keep nets and values. -/
  known : ∀ {a decl}, s.design.signals.get? a = some decl →
    ∃ n v, s.elaboration.nets.net? a = some n ∧ u.elaboration.nets.net? a = some n ∧
      s.peek a = some v ∧ u.peek a = some v
  /-- The new signals have nets of their own, and read their constants or 0. -/
  fresh : ∀ {a decl}, s.design.signals.get? a = none → u.design.signals.get? a = some decl →
    ∃ n, u.elaboration.nets.net? a = some n ∧ u.elaboration.nets.members n = [a] ∧
      u.peek a = some (decl.kind.constValue?.getD 0)

section

variable (h : s.Renewed d u)
  (hs : Resolves s.design.signals s.design.connections s.elaboration.extraction
    s.elaboration.nets)
  (hu : Resolves u.design.signals s.design.connections s.elaboration.extraction
    u.elaboration.nets)
  (hext : u.design.signals.Extends s.design.signals)
  {a : SignalId} {decl : SignalDef}

include h hs hu hext

theorem Renewed.known (ha : s.design.signals.get? a = some decl) :
    ∃ n v, s.elaboration.nets.net? a = some n ∧ u.elaboration.nets.net? a = some n ∧
      s.peek a = some v ∧ u.peek a = some v := by
  have hlt := SignalTable.lt_size_of_get? ha
  obtain ⟨n, hn⟩ := hs.exists_net? hlt
  have hn' : u.elaboration.nets.net? a = some n := (hs.net?_extend hu hext hlt).trans hn
  have hsize := hs.index_lt_size hn
  obtain ⟨v, hv⟩ : ∃ v, s.peek a = some v := by
    rw [← Option.isSome_iff_exists, h.before.isSome_peek]
    exact Option.isSome_iff_exists.2 ⟨n, hn⟩
  have hkept : u.peek a = s.peek a := by
    refine h.kept hn hn' (fun t ht _ => ⟨t, ?_, Nat.le_refl _⟩) fun k v => ?_
    · rwa [hs.members_extend hu hext hsize] at ht
    · exact hs.driver_extend hu hext hsize
  exact ⟨n, v, hn, hn', hv, hkept.trans hv⟩

theorem Renewed.fresh_alone (ha : s.design.signals.get? a = none)
    (hdecl : u.design.signals.get? a = some decl) :
    ∃ n, u.elaboration.nets.net? a = some n ∧ u.elaboration.nets.members n = [a] ∧
      u.peek a = some (decl.kind.constValue?.getD 0) := by
  have hnew : s.design.signals.size ≤ a.index := Array.getElem?_eq_none_iff.1 ha
  obtain ⟨n, hn⟩ := hu.exists_net? (SignalTable.lt_size_of_get? hdecl)
  have hmembers := hs.members_new hu hext hnew hn
  have hdriver : ∀ {k v}, u.elaboration.nets.driver n = some (.const k v) →
      decl.kind = .const v := by
    intro k v hconst
    obtain ⟨-, decl', hdecl', hkind⟩ := (hs.driver_new hu hext hnew hn).1 hconst
    obtain rfl := Option.some.inj (hdecl.symm.trans hdecl')
    exact hkind
  -- the net has no value to take over, as its only member is new
  have huncovered : ∀ t ∈ u.elaboration.nets.members n, ¬ s.Covers t := by
    intro t ht hcovered
    rw [hmembers, List.mem_singleton] at ht
    obtain ⟨m, hm⟩ := Option.isSome_iff_exists.1 hcovered
    exact absurd (hs.lt_of_net? (ht ▸ hm)) (Nat.not_lt.2 hnew)
  refine ⟨n, hn, hmembers, ?_⟩
  cases hkind : decl.kind with
  | const v =>
    exact h.after.peek_const hn ((hs.driver_new hu hext hnew hn).2 ⟨rfl, decl, hdecl, hkind⟩)
  | inPort | outPort | wire =>
    refine h.fresh hn (fun k v hconst => ?_) huncovered
    rw [hdriver hconst] at hkind
    cases hkind

end

/-- **Declarations are inert.**  Take a reachable simulator that is not stale and allows undriven
outputs.  After any declarations and no other edits, an elaboration succeeds.  Order, batches and
edges are those from before, and so are the nets and values of the signals from before.  Each new
signal is alone in its net and reads its constant, or else 0. -/
theorem declarations_inert (hs : s.Reachable)
    (hcurrent : s.tickProcedure.revision = s.design.revision)
    (hdeny : s.config.denyUndriven = false) {edits : List (Edit μ)}
    (hedits : ∀ e ∈ edits, e.declares = true) :
    ∃ u, (s.performAll (edits.map .edit)).2.reelaborate = (.ok (), u) ∧ s.Enlarged u := by
  obtain ⟨signals, heq, hrework⟩ := performAll_declares hedits s .refl
  have hbuilt : ({ s.design with signals } : Design μ).Built :=
    (hs.rework hrework).coherent.built
  have hcompile := hs.compile_eq hcurrent
  obtain ⟨e', hcompile', he', hsame⟩ := Design.exists_compile_extend hs.coherent.built hbuilt.forest
    hrework.extends hdeny hcompile
  have hok : { s with design.signals := signals }.reelaborate.1 = .ok () := by
    unfold reelaborate
    simp only [hcompile']
  obtain ⟨d₀, hrenewed⟩ := hs.exists_renewed hrework hok
  rw [heq]
  unfold reelaborate at hrenewed ⊢
  simp only [hcompile'] at hrenewed ⊢
  have hresolves := (Design.elaborate_eq_ok (Design.compile_eq_ok hcompile).1).resolves
  have hresolves' := he'.resolves
  rw [hsame.extraction] at hresolves'
  refine ⟨_, rfl, {
    procedure := rfl
    order := hsame.order
    batches := hsame.batches
    retained := hsame.retained
    sequential := hsame.sequential
    known := hrenewed.known hresolves hresolves' hrework.extends
    fresh := hrenewed.fresh_alone hresolves hresolves' hrework.extends }⟩

/-- A part of the count, a constant, a path that is taken, and a wire. -/
def extras : List (Edit Unit) :=
  [.declareChild ⟨0⟩ "[0]" "Bits1", .declare "k" (.const 3) "Bits8" Hierarchy.top,
    .declare "now" .wire "Bits8" Hierarchy.top, .declare "w" .wire "Bits8" Hierarchy.top]

/-- After two cycles signals are declared.  The count is 2 still, the constant is 3 and the wire 0,
and the delay of the count still is the one register. -/
theorem counting_enlarged : ∃ s₀ u : Simulator Unit, Simulator.new counting {} () = .ok s₀ ∧
    let s := (s₀.perform (.run 2)).2
    (s.performAll (extras.map .edit)).2.reelaborate = (.ok (), u) ∧ s.Enlarged u ∧
      s.peek ⟨0⟩ = some 2 ∧ u.peek ⟨0⟩ = some 2 ∧ u.peek ⟨3⟩ = some 0 ∧ u.peek ⟨4⟩ = some 3 ∧
      u.peek ⟨5⟩ = some 0 ∧ u.elaboration.schedule.sequential.length = 1 := by
  have hcheck : ((Simulator.new counting {} ()).toOption.any fun s₀ =>
      let s := (s₀.perform (.run 2)).2
      let u := (s.performAll (extras.map .edit)).2.reelaborate.2
      decide (s.tickProcedure.revision = s.design.revision) &&
        decide (s.config.denyUndriven = false) && decide (s.peek ⟨0⟩ = some 2) &&
        decide (u.peek ⟨0⟩ = some 2) && decide (u.peek ⟨3⟩ = some 0) &&
        decide (u.peek ⟨4⟩ = some 3) && decide (u.peek ⟨5⟩ = some 0) &&
        decide (u.elaboration.schedule.sequential.length = 1)) = true := by
    decide +kernel
  have hpassed := Design.exists_ok_of_any hcheck
  obtain ⟨s₀, hnew, hcheck⟩ := hpassed
  simp only [Bool.and_eq_true, decide_eq_true_eq] at hcheck
  obtain ⟨⟨⟨⟨⟨⟨⟨hcurrent, hdeny⟩, hcount⟩, hcount'⟩, hpart⟩, hconst⟩, hwire⟩, hsequential⟩ := hcheck
  have hs : (s₀.perform (.run 2)).2.Reachable :=
    (Reachable.new (Design.built_ofEdits _ _) hnew).perform (.run 2)
  have hedits : ∀ e ∈ extras, e.declares = true := by decide
  obtain ⟨u, hu, henlarged⟩ := declarations_inert hs hcurrent hdeny hedits
  rw [hu] at hcount' hpart hconst hwire hsequential
  exact ⟨s₀, u, hnew, hu, henlarged, hcount, hcount', hpart, hconst, hwire, hsequential⟩

end Simulator

end Cyclewise
