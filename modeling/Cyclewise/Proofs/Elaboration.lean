import Cyclewise.Elaboration
import Cyclewise.Proofs.Block.Extraction
import Cyclewise.Proofs.Hierarchy.Built
import Cyclewise.Proofs.Schedule.Basic

/-!
# Designs that edits lead to, and their elaboration

`Design.Built` collects the designs that arise by successful edits from an empty one.  Their live
blocks are those that the hierarchy knows (`Built.mem_liveBlocks`), each under one number, and a
successful elaboration is made of a successful extraction, resolution and scheduling (`Stages`).
-/

namespace Cyclewise

/-- Declaring no constraints is accepted and changes nothing. -/
def Edit.isIdle {μ : Type} : Edit μ → Bool
  | .addConstraints _ [] => true
  | _ => false

namespace Design

variable {μ : Type}

/-- The designs that successful edits lead to, with the aggregate asked for at any time. -/
inductive Built : Design μ → Prop where
  | new (top : String) : Built (new top)
  | apply {d d'} (hd : Built d) {edit result} (he : d.apply edit = .ok (result, d')) : Built d'
  | aggregate {d} (hd : Built d) : Built { d with hierarchy := d.hierarchy.aggregate.2 }

variable {d d' : Design μ}

/-! ## Edits -/

theorem withHierarchy_eq_ok {edited : Except HierarchyError (Hierarchy μ)} {result : EditResult}
    (h : d.withHierarchy edited = .ok (result, d')) :
    ∃ k, edited = .ok k ∧ d' = { d with hierarchy := k } := by
  unfold withHierarchy at h
  split at h
  · obtain ⟨-, rfl⟩ := Prod.mk.inj (Except.ok.inj h)
    exact ⟨_, rfl, rfl⟩
  · cases h

theorem withComponent_eq_ok {edited : Except HierarchyError (ComponentId × Hierarchy μ)}
    {result : EditResult} (h : d.withComponent edited = .ok (result, d')) :
    ∃ c k, edited = .ok (c, k) ∧ d' = { d with hierarchy := k } := by
  unfold withComponent at h
  split at h
  · obtain ⟨-, rfl⟩ := Prod.mk.inj (Except.ok.inj h)
    exact ⟨_, _, rfl, rfl⟩
  · cases h

theorem withBlock_eq_ok {edited : Except HierarchyError (BlockId × Hierarchy μ)}
    {result : EditResult} (h : d.withBlock edited = .ok (result, d')) :
    ∃ b k, edited = .ok (b, k) ∧ d' = { d with hierarchy := k } := by
  unfold withBlock at h
  split at h
  · obtain ⟨-, rfl⟩ := Prod.mk.inj (Except.ok.inj h)
    exact ⟨_, _, rfl, rfl⟩
  · cases h

theorem withSignal_eq_ok {edited : Except SignalError (SignalId × SignalTable)}
    {result : EditResult} (h : d.withSignal edited = .ok (result, d')) :
    ∃ s t, edited = .ok (s, t) ∧ d' = { d with signals := t } := by
  unfold withSignal at h
  split at h
  · obtain ⟨-, rfl⟩ := Prod.mk.inj (Except.ok.inj h)
    exact ⟨_, _, rfl, rfl⟩
  · cases h

/-- The ways in which a successful edit changes a design: the hierarchy counts it, or it adds a
declaration, or it adds a connection. -/
inductive Changes (d : Design μ) : Design μ → Prop where
  | hierarchy {k} (ht : d.hierarchy.Touched k) (hb : d.hierarchy.Built → k.Built) :
    Changes d { d with hierarchy := k }
  | signals {decl s t} (ht : d.signals.insert decl = .ok (s, t))
    (hb : d.signals.Built → t.Built) : Changes d { d with signals := t }
  | connections (a b : SignalId) : Changes d (d.connect a b)

/-- A successful edit changes the design, unless it is idle. -/
theorem apply_eq_ok {edit : Edit μ} {result : EditResult}
    (he : d.apply edit = .ok (result, d')) :
    (edit.isIdle = true ∧ d' = d) ∨ (edit.isIdle = false ∧ d.Changes d') := by
  cases edit with
  | addComponent parent name =>
    obtain ⟨c, k, hk, rfl⟩ := withComponent_eq_ok he
    exact .inr ⟨rfl, .hierarchy (Hierarchy.addComponent_eq_ok hk) fun hb => hb.addComponent hk⟩
  | removeComponent c =>
    obtain ⟨k, hk, rfl⟩ := withHierarchy_eq_ok he
    exact .inr ⟨rfl,
      .hierarchy (Hierarchy.removeComponent_eq_ok hk) fun hb => hb.removeComponent hk⟩
  | removeComponentNamed parent name =>
    obtain ⟨k, hk, rfl⟩ := withHierarchy_eq_ok he
    unfold Hierarchy.removeComponentNamed at hk
    split at hk
    · exact .inr ⟨rfl, .hierarchy (Hierarchy.removeComponent_eq_ok hk)
        fun hb => hb.removeComponent hk⟩
    · cases hk
  | registerBlock owner block =>
    obtain ⟨b, k, hk, rfl⟩ := withBlock_eq_ok he
    exact .inr ⟨rfl, .hierarchy (Hierarchy.registerBlock_eq_ok hk) fun hb => hb.registerBlock hk⟩
  | registerCopy owner b =>
    unfold apply at he
    simp only at he
    split at he
    · obtain ⟨b, k, hk, rfl⟩ := withBlock_eq_ok he
      exact .inr ⟨rfl, .hierarchy (Hierarchy.registerBlock_eq_ok hk) fun hb => hb.registerBlock hk⟩
    · cases he
  | addConstraint owner before after =>
    obtain ⟨k, hk, rfl⟩ := withHierarchy_eq_ok he
    rcases Hierarchy.addConstraints_eq_ok hk with ⟨hnil, -⟩ | ⟨-, ht⟩
    · cases hnil
    · exact .inr ⟨rfl, .hierarchy ht fun hb => hb.addConstraints hk⟩
  | addConstraints owner constraints =>
    obtain ⟨k, hk, rfl⟩ := withHierarchy_eq_ok he
    rcases Hierarchy.addConstraints_eq_ok hk with ⟨rfl, rfl⟩ | ⟨hne, ht⟩
    · exact .inl ⟨rfl, rfl⟩
    · refine .inr ⟨?_, .hierarchy ht fun hb => hb.addConstraints hk⟩
      cases constraints with
      | nil => exact absurd rfl hne
      | cons => rfl
  | declare path kind typeName owner =>
    obtain ⟨s, t, ht, rfl⟩ := withSignal_eq_ok he
    exact .inr ⟨rfl, .signals ht fun hb => hb.declare ht⟩
  | declareChild parent suffix typeName =>
    obtain ⟨s, t, ht, rfl⟩ := withSignal_eq_ok he
    obtain ⟨decl, hinsert, -⟩ := SignalTable.exists_insert_of_declareChild ht
    exact .inr ⟨rfl, .signals hinsert fun hb => hb.declareChild ht⟩
  | connect a b =>
    obtain ⟨-, rfl⟩ := Prod.mk.inj (Except.ok.inj he)
    exact .inr ⟨rfl, .connections a b⟩

/-- The revision counts the edits that change something. -/
theorem Changes.revision (hc : d.Changes d') : d'.revision = d.revision + 1 := by
  cases hc with
  | hierarchy ht _ =>
    have := ht.revision
    simp only [Design.revision]
    omega
  | signals ht _ =>
    have := SignalTable.size_insert ht
    simp only [Design.revision]
    omega
  | connections a b =>
    simp only [Design.revision, Design.connect, List.length_append, List.length_singleton]
    omega

/-- A change keeps hierarchy and signals among those that edits lead to. -/
theorem Changes.built (hc : d.Changes d') (hd : d.hierarchy.Built ∧ d.signals.Built) :
    d'.hierarchy.Built ∧ d'.signals.Built := by
  cases hc with
  | hierarchy _ hb => exact ⟨hb hd.1, hd.2⟩
  | signals _ hb => exact ⟨hd.1, hb hd.2⟩
  | connections a b => exact hd

/-- An edit takes no declaration back. -/
theorem extends_apply {edit : Edit μ} {result : EditResult} (he : d.apply edit = .ok (result, d')) :
    d'.signals.Extends d.signals := by
  rcases apply_eq_ok he with ⟨-, rfl⟩ | ⟨-, hc⟩
  · exact .refl _
  · cases hc with
    | hierarchy _ _ => exact .refl _
    | signals ht _ => exact SignalTable.extends_insert ht
    | connections a b => exact .refl _

theorem Built.parts (hd : d.Built) : d.hierarchy.Built ∧ d.signals.Built := by
  induction hd with
  | new top => exact ⟨.new top, .empty⟩
  | apply _ he ih =>
    rcases apply_eq_ok he with ⟨-, rfl⟩ | ⟨-, hc⟩
    · exact ih
    · exact hc.built ih
  | aggregate _ ih => exact ⟨.aggregate ih.1, ih.2⟩

theorem Built.applyAll (hd : d.Built) (edits : List (Edit μ)) :
    (d.applyAll edits).design.Built := by
  induction edits generalizing d with
  | nil => exact hd
  | cons edit rest ih =>
    unfold Design.applyAll
    split
    · exact hd
    · next he => exact ih (.apply hd he)

theorem built_ofEdits (top : String) (edits : List (Edit μ)) : (ofEdits top edits).Built :=
  (Built.new top).applyAll edits

theorem Built.hierarchy (hd : d.Built) : d.hierarchy.Built := hd.parts.1

theorem Built.forest (hd : d.Built) : d.signals.Forest := hd.parts.2.forest

/-! ## Live blocks -/

theorem Built.mem_liveBlocks (hd : d.Built) {b : BlockId} {block : UpdateBlock μ} :
    (b, block) ∈ d.liveBlocks ↔ d.hierarchy.block? b = some block := by
  unfold liveBlocks
  rw [List.mem_filterMap, hd.hierarchy.flattened_eq]
  constructor
  · rintro ⟨b, -, h⟩
    obtain ⟨block, hblock, h⟩ := Option.map_eq_some_iff.1 h
    obtain ⟨rfl, rfl⟩ := Prod.mk.inj h
    exact hblock
  · intro h
    refine ⟨b, Hierarchy.mem_blocks_flatten.2 ?_, by rw [h, Option.map_some]⟩
    rw [h, Option.isSome_some]

theorem Built.map_fst_liveBlocks (hd : d.Built) :
    d.liveBlocks.map Prod.fst = d.hierarchy.flatten.blocks := by
  unfold liveBlocks
  rw [hd.hierarchy.flattened_eq, List.map_filterMap]
  refine (List.filterMap_congr fun b hb => ?_).trans (List.filterMap_some ..)
  obtain ⟨block, hblock⟩ := Option.isSome_iff_exists.1 (Hierarchy.mem_blocks_flatten.1 hb)
  rw [hblock]
  rfl

theorem Built.nodup_liveBlocks (hd : d.Built) : (d.liveBlocks.map Prod.fst).Nodup := by
  rw [hd.map_fst_liveBlocks]
  exact nodup_of_ascending (Hierarchy.pairwise_blocks_flatten d.hierarchy)

/-- Just the live blocks are analysed. -/
theorem Built.mem_keys_of_extract (hd : d.Built) {x : Extraction}
    (hx : extract d.liveBlocks = .ok x) {b : BlockId} :
    b ∈ x.analyzed.keys ↔ (d.hierarchy.block? b).isSome := by
  rw [keys_of_extract hx hd.nodup_liveBlocks, hd.map_fst_liveBlocks, Hierarchy.mem_blocks_flatten]

/-! ## Elaboration -/

/-- The stages of a successful elaboration. -/
structure Stages (d : Design μ) (config : SimConfig) (e : Elaboration) : Prop where
  extract : extract d.liveBlocks = .ok e.extraction
  resolve : resolve d.signals d.connections e.extraction ⟨config.denyUndriven, Hierarchy.top⟩ =
    .ok e.nets
  schedule : schedule d.signals e.extraction e.nets d.hierarchy.flattened.constraints =
    .ok e.schedule
  revision : e.revision = d.revision

/-- A result that passes a test is no error. -/
theorem exists_ok_of_any {ε α : Type} {r : Except ε α} {p : α → Bool}
    (h : r.toOption.any p = true) : ∃ a, r = .ok a ∧ p a = true := by
  cases r with
  | error e => cases h
  | ok a => exact ⟨a, rfl, h⟩

theorem mapError_eq_ok {ε ε' α : Type} {f : ε → ε'} {r : Except ε α} {a : α} :
    r.mapError f = .ok a ↔ r = .ok a := by
  cases r <;> simp [Except.mapError]

theorem elaborate_eq_ok {config : SimConfig} {e : Elaboration}
    (he : d.elaborate config = .ok e) : d.Stages config e := by
  simp only [elaborate, bind, Except.bind] at he
  split at he
  · cases he
  · split at he
    · cases he
    · split at he
      · cases he
      · next x hx =>
        split at he
        · cases he
        · next nets hnets =>
          split at he
          · cases he
          · next s hs =>
            obtain rfl := Except.ok.inj he
            exact ⟨mapError_eq_ok.1 hx, mapError_eq_ok.1 hnets, mapError_eq_ok.1 hs, rfl⟩

/-- Under valid settings, with connections between declared signals, stages that succeed make an
elaboration. -/
theorem Stages.elaborate_eq {config : SimConfig} {e : Elaboration} (he : d.Stages config e)
    (hconfig : config.validate = .ok ()) (hvalid : d.validate = .ok ()) :
    d.elaborate config = .ok e := by
  obtain ⟨hextract, hresolve, hschedule, hrevision⟩ := he
  obtain ⟨x, nets, s, revision⟩ := e
  simp only at hextract hresolve hschedule hrevision
  subst hrevision
  simp only [elaborate, bind, Except.bind, Except.mapError, hconfig, hvalid, hextract, hresolve,
    hschedule]
  rfl

/-- The ways in which an elaboration fails, one for each stage. -/
inductive Fails (d : Design μ) (config : SimConfig) : ElaborationError → Prop where
  | settings {e} (h : config.validate = .error e) : Fails d config (.config e)
  | connections {e} (h : d.validate = .error e) : Fails d config (.config e)
  | extract {e} (h : extract d.liveBlocks = .error e) : Fails d config (.extract e)
  | resolve {e x} (hd : d.validate = .ok ()) (hx : Cyclewise.extract d.liveBlocks = .ok x)
    (h : resolve d.signals d.connections x ⟨config.denyUndriven, Hierarchy.top⟩ = .error e) :
    Fails d config (.net e)
  | schedule {e x nets} (hx : Cyclewise.extract d.liveBlocks = .ok x)
    (hnets : Cyclewise.resolve d.signals d.connections x ⟨config.denyUndriven, Hierarchy.top⟩ =
      .ok nets)
    (h : schedule d.signals x nets d.hierarchy.flattened.constraints = .error e) :
    Fails d config (.schedule e)

theorem mapError_eq_error {ε ε' α : Type} {f : ε → ε'} {r : Except ε α} {e' : ε'} :
    r.mapError f = .error e' ↔ ∃ e, r = .error e ∧ f e = e' := by
  cases r <;> simp [Except.mapError]

theorem elaborate_eq_error {config : SimConfig} {e : ElaborationError}
    (he : d.elaborate config = .error e) : d.Fails config e := by
  simp only [elaborate, bind, Except.bind] at he
  split at he
  · next hsettings =>
    obtain ⟨e, herror, rfl⟩ := mapError_eq_error.1 hsettings
    cases he
    exact .settings herror
  · split at he
    · next hconnections =>
      obtain ⟨e, herror, rfl⟩ := mapError_eq_error.1 hconnections
      cases he
      exact .connections herror
    · next hconnections =>
      split at he
      · next hx =>
        obtain ⟨e, herror, rfl⟩ := mapError_eq_error.1 hx
        cases he
        exact .extract herror
      · next x hx =>
        split at he
        · next hnets =>
          obtain ⟨e, herror, rfl⟩ := mapError_eq_error.1 hnets
          cases he
          exact .resolve (mapError_eq_ok.1 hconnections) (mapError_eq_ok.1 hx) herror
        · next nets hnets =>
          split at he
          · next hs =>
            obtain ⟨e, herror, rfl⟩ := mapError_eq_error.1 hs
            cases he
            exact .schedule (mapError_eq_ok.1 hx) (mapError_eq_ok.1 hnets) herror
          · cases he

theorem compile_eq_ok {config : SimConfig} {e : Elaboration} {tick : Tick μ}
    (h : d.compile config = .ok (e, tick)) :
    d.elaborate config = .ok e ∧
      Tick.generate e.schedule d.hierarchy.block? config.mode e.revision = .ok tick := by
  simp only [compile, bind, Except.bind] at h
  split at h
  · cases h
  · next e' he =>
    split at h
    · cases h
    · next tick' htick =>
      obtain ⟨rfl, rfl⟩ := Prod.mk.inj (Except.ok.inj h)
      exact ⟨he, mapError_eq_ok.1 htick⟩

theorem Stages.resolves {config : SimConfig} {e : Elaboration} (he : d.Stages config e) :
    Resolves d.signals d.connections e.extraction e.nets :=
  resolve_eq_ok he.resolve

/-- Connections between declared signals are valid. -/
theorem validate_of_declared
    (h : ∀ c ∈ d.connections, c.a.index < d.signals.size ∧ c.b.index < d.signals.size) :
    d.validate = .ok () := by
  have hends : ∀ s ∈ d.connections.flatMap fun c => [c.a, c.b], s.index < d.signals.size := by
    intro s hs
    obtain ⟨c, hc, hs⟩ := List.mem_flatMap.1 hs
    obtain ⟨ha, hb⟩ := h c hc
    rcases List.mem_pair.1 hs with rfl | rfl
    · exact ha
    · exact hb
  unfold validate
  rw [find?_undeclared hends]

section

variable {config : SimConfig} {e : Elaboration} (hd : d.Built) (he : d.Stages config e)

include hd he

theorem Stages.schedules :
    Schedules e.extraction e.nets d.hierarchy.constraints.keys e.schedule := by
  have h := schedule_eq_ok he.schedule
  rwa [hd.hierarchy.flattened_eq] at h

/-- The accesses of a live block are those of its analysis. -/
theorem Stages.access?_eq {b : BlockId} {block : UpdateBlock μ} {a : BlockAnalysis}
    (hb : d.hierarchy.block? b = some block) (ha : block.analyze = .ok a) :
    e.extraction.access? b = some a.access := by
  unfold Extraction.access?
  rw [find?_of_extract he.extract hd.nodup_liveBlocks (hd.mem_liveBlocks.2 hb) ha, Option.map_some]

theorem Stages.mem_keys {b : BlockId} :
    b ∈ e.extraction.analyzed.keys ↔ (d.hierarchy.block? b).isSome :=
  hd.mem_keys_of_extract he.extract

/-- Just the live blocks are scheduled. -/
theorem Stages.mem_order {b : BlockId} :
    b ∈ e.schedule.order ↔ (d.hierarchy.block? b).isSome := by
  rw [(he.schedules hd).perm.mem_iff, he.mem_keys hd]

end

end Design

end Cyclewise
