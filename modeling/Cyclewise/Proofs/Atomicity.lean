import Cyclewise.Proofs.Onward
import Cyclewise.Proofs.Signal.Index

/-!
# Failed elaborations

An elaboration that fails leaves everything but the design as it was (`Untouched`), wherever it
fails: in one of its stages or in a change of the design that comes before it.  If the design was
changed, the tick is outdated, since changes only increase the revision (`Reworked.revision`).  So
ticks are refused until an elaboration succeeds (`Blocked`), even after a change that takes the
first one back.
-/

namespace Cyclewise

namespace Design

variable {μ : Type}

/-- A design apart from the aggregate that it keeps. -/
def bare (d : Design μ) : Design μ := { d with hierarchy.cache := none }

/-- Successful edits lead from one design to another one, with the aggregate asked for at any
time. -/
inductive Reworked (d : Design μ) : Design μ → Prop where
  | refl : Reworked d d
  | apply {d' d'' edit result} (h : Reworked d d') (he : d'.apply edit = .ok (result, d'')) :
      Reworked d d''
  | aggregate {d'} (h : Reworked d d') :
      Reworked d { d' with hierarchy := d'.hierarchy.aggregate.2 }

variable {d d' : Design μ}

theorem Reworked.built (h : d.Reworked d') (hd : d.Built) : d'.Built := by
  induction h with
  | refl => exact hd
  | apply _ he ih => exact ih.apply he
  | aggregate _ ih => exact ih.aggregate

theorem Reworked.extends (h : d.Reworked d') : d'.signals.Extends d.signals := by
  induction h with
  | refl => exact .refl _
  | apply _ he ih => exact (extends_apply he).trans ih
  | aggregate _ ih => exact ih

/-- A change cannot be taken back without being counted. -/
theorem Reworked.revision (h : d.Reworked d') :
    d'.bare = d.bare ∧ d'.revision = d.revision ∨ d.revision < d'.revision := by
  induction h with
  | refl => exact .inl ⟨rfl, rfl⟩
  | apply _ he ih =>
    rcases apply_eq_ok he with ⟨-, rfl⟩ | ⟨-, hchange⟩
    · exact ih
    · have hnext := hchange.revision
      omega
  | aggregate _ ih => exact ih

theorem reworked_applyAll (d : Design μ) (edits : List (Edit μ)) :
    d.Reworked (d.applyAll edits).design := by
  have htrans : ∀ (edits : List (Edit μ)) {d' : Design μ}, d.Reworked d' →
      d.Reworked (d'.applyAll edits).design := by
    intro edits
    induction edits with
    | nil => exact id
    | cons edit rest ih =>
      intro d' h
      unfold applyAll
      split
      · exact h
      · next he => exact ih (h.apply he)
  exact htrans edits .refl

end Design

namespace Simulator

variable {μ : Type} {s s' : Simulator μ} {pending : Bool}

/-- Change the design and elaborate anew.  If the change fails this ends, with nothing
elaborated. -/
def restructureWith (s : Simulator μ)
    (change : Design μ → Except ElaborationError Unit × Design μ) :
    Except ElaborationError Unit × Simulator μ :=
  match change s.design with
  | (.ok (), design) => { s with design }.reelaborate
  | (.error e, design) => (.error e, { s with design })

/-- What stays as it was when an elaboration fails. -/
structure Untouched (s s' : Simulator μ) : Prop where
  elaboration : s'.elaboration = s.elaboration
  tickProcedure : s'.tickProcedure = s.tickProcedure
  store : s'.store = s.store
  peek : ∀ a, s'.peek a = s.peek a
  peekPath : ∀ path, s'.peekPath path = s.peekPath path
  memory : s'.memory = s.memory
  cycle : s'.cycle = s.cycle
  halted : s'.halted = s.halted
  lastTick : s'.lastTick = s.lastTick

/-- Whatever is done, ticks and runs are refused as long as no elaboration succeeds. -/
def Blocked (s : Simulator μ) : Prop :=
  ∀ t, s.Onward (fun o => !o.elaborates) t →
    t.Refuses .halted ∨ ∃ generated current, t.Refuses (.staleSchedule generated current)

/-- What a failed attempt to elaborate anew leaves.  The mark says whether the design was changed
since it was last elaborated. -/
structure Withstands (s : Simulator μ) (pending : Bool) (s' : Simulator μ) : Prop where
  untouched : s.Untouched s'
  blocked : pending = true ∨ s'.design.bare ≠ s.design.bare → s'.Blocked

/-- A list of edits is a change that fails at the first edit that is refused. -/
theorem restructure_eq (s : Simulator μ) (edits : List (Edit μ)) :
    s.restructureWith (fun d => (match (d.applyAll edits).refusal with
      | some e => .error (.ofEdit e)
      | none => .ok (), (d.applyAll edits).design)) =
    ((s.restructure edits).1.1, (s.restructure edits).2) := by
  unfold restructureWith restructure
  simp only
  cases (s.design.applyAll edits).refusal with
  | some e => rfl
  | none => rfl

theorem Reachable.rework (hs : s.Reachable) {d : Design μ} (h : s.design.Reworked d) :
    { s with design := d }.Reachable := by
  induction h with
  | refl => exact hs
  | @apply d' d'' edit result _ he ih =>
    have hnext := ih.perform (.edit edit)
    have hedit : ({ s with design := d' }.perform (.edit edit)).2 = { s with design := d'' } := by
      show (Simulator.edit { s with design := d' } _).2 = _
      unfold Simulator.edit
      simp only [he]
    rwa [hedit] at hnext
  | aggregate _ ih => exact ih.aggregate

/-! ## What stays -/

/-- A signal that is not declared has no value. -/
theorem Coherent.peek_eq_none (hs : s.Coherent) {a : SignalId}
    (h : s.design.signals.get? a = none) : s.peek a = none := by
  obtain ⟨d, config, he⟩ := hs.elaborated
  unfold peek
  rw [SignalStore.read?_eq, hs.net?_eq]
  cases hn : s.elaboration.nets.net? a with
  | none => rfl
  | some n =>
    obtain ⟨decl, hdecl⟩ := SignalTable.exists_get?_iff.2 (he.stages.resolves.lt_of_net? hn)
    have hdeclared := he.signals a decl hdecl
    rw [h] at hdeclared
    cases hdeclared

/-- Changes of the design alone do not touch anything else. -/
theorem Coherent.untouched (hs : s.Coherent) {d : Design μ} (h : s.design.Reworked d) :
    s.Untouched { s with design := d } := by
  refine ⟨rfl, rfl, rfl, fun _ => rfl, fun path => ?_, rfl, rfl, rfl, rfl⟩
  show (d.signals.lookup? path).bind s.peek = (s.design.signals.lookup? path).bind s.peek
  rcases hs.built.parts.2.lookup?_extends (h.built hs.built).parts.2 h.extends path with
    heq | ⟨hnone, a, hsome, hnew⟩
  · rw [heq]
  · rw [hnone, hsome]
    exact hs.peek_eq_none hnew

theorem reelaborate_eq_error {e : ElaborationError} (h : s.reelaborate.1 = .error e) :
    s.reelaborate.2 = s := by
  unfold reelaborate at h ⊢
  split
  · rfl
  · next heq =>
    rw [heq] at h
    cases h

/-- When a change or the elaboration after it fails, just the change is made. -/
theorem restructureWith_eq_error {change : Design μ → Except ElaborationError Unit × Design μ}
    {e : ElaborationError} (h : (s.restructureWith change).1 = .error e) :
    (s.restructureWith change).2 = { s with design := (change s.design).2 } := by
  unfold restructureWith at h ⊢
  split
  · next design hchange =>
    rw [hchange] at h
    rw [hchange]
    exact reelaborate_eq_error h
  · next hchange => rw [hchange]

/-! ## What is refused -/

theorem Reachable.blocked (hs : s.Reachable) (h : s.Outdated) : s.Blocked := by
  intro t ht
  rcases refuses_of_outdated (ht.reachable hs) (ht.outdated h) with hhalted | hstale
  · exact .inl hhalted
  · exact .inr ⟨_, _, hstale⟩

theorem Traced.outdated (hs : Traced s pending) {d : Design μ} (h : s.design.Reworked d)
    (hchanged : pending = true ∨ d.bare ≠ s.design.bare) : { s with design := d }.Outdated := by
  have htracked := hs.tracked
  show s.tickProcedure.revision < d.revision
  rcases h.revision with ⟨hsame, hrevision⟩ | hlt
  · rw [hrevision]
    exact htracked.stale (hchanged.resolve_right fun hne => hne hsame)
  · exact htracked.le.trans_lt hlt

theorem Traced.withstands (hs : Traced s pending) {d : Design μ} (h : s.design.Reworked d) :
    s.Withstands pending { s with design := d } :=
  ⟨hs.reachable.coherent.untouched h, fun hchanged =>
    (hs.reachable.rework h).blocked (hs.outdated h hchanged)⟩

/-- **Failed elaborations.**  In a history of a simulator, take an attempt to elaborate anew that
fails, in a change of the design or in any stage.  It leaves everything but the design as it was.
If the design was changed by it, or since the elaboration before, all later ticks and runs are
refused until an elaboration succeeds, whatever changes of the design come in between. -/
theorem failed_elaboration (hs : Traced s pending) :
    (∀ e, s.reelaborate.1 = .error e →
      s.Withstands pending s.reelaborate.2 ∧ s.reelaborate.2.design = s.design) ∧
    (∀ edits e, (s.restructure edits).1.1 = .error e →
      s.Withstands pending (s.restructure edits).2) ∧
    ∀ change e, s.design.Reworked (change s.design).2 → (s.restructureWith change).1 = .error e →
      s.Withstands pending (s.restructureWith change).2 := by
  have hchanges : ∀ change e, s.design.Reworked (change s.design).2 →
      (s.restructureWith change).1 = .error e →
      s.Withstands pending (s.restructureWith change).2 := by
    intro change e hrework herror
    rw [restructureWith_eq_error herror]
    exact hs.withstands hrework
  refine ⟨fun e herror => ?_, fun edits e herror => ?_, hchanges⟩
  · rw [reelaborate_eq_error herror]
    exact ⟨hs.withstands .refl, rfl⟩
  · have heq := s.restructure_eq edits
    have hkept := hchanges _ e (Design.reworked_applyAll s.design edits)
      ((congrArg Prod.fst heq).trans herror)
    rwa [heq] at hkept

/-- A component with a second driver of signal 1. -/
def rival : List (Edit Unit) :=
  [.addComponent Hierarchy.top "sub", .registerBlock ⟨1⟩ (.copy "rival" ⟨0⟩ ⟨1⟩)]

/-- The second driver is refused.  Without its component the design has the live blocks that it had,
but the tick is refused all the same. -/
theorem counting_rival : ∃ s s' s'' : Simulator Unit, Simulator.new counting {} () = .ok s ∧
    (∃ e, s.restructure rival = ((.error (.net e), [.component ⟨1⟩, .block ⟨3⟩]), s')) ∧
    s.Untouched s' ∧ s'.edit (.removeComponent ⟨1⟩) = (.ok .done, s'') ∧
    s''.design.liveBlocks.map Prod.fst = s.design.liveBlocks.map Prod.fst ∧
    s''.Refuses (.staleSchedule 7 10) := by
  have hcheck : ((Simulator.new counting {} ()).toOption.any fun s =>
      (match (s.restructure rival).1.1 with
        | .error (.net _) => true
        | _ => false) &&
      decide ((s.restructure rival).1.2 = [.component ⟨1⟩, .block ⟨3⟩]) &&
      decide ((s.restructure rival).2.design.revision ≠ s.design.revision) &&
      decide (((s.restructure rival).2.edit (.removeComponent ⟨1⟩)).1 = .ok .done) &&
      decide (((s.restructure rival).2.edit (.removeComponent ⟨1⟩)).2.design.liveBlocks.map
        Prod.fst = s.design.liveBlocks.map Prod.fst) &&
      decide (((s.restructure rival).2.edit (.removeComponent ⟨1⟩)).2.tick.1 =
        .error (.staleSchedule 7 10))) = true := by
    decide +kernel
  obtain ⟨s, hnew, hcheck⟩ := Design.exists_ok_of_any hcheck
  simp only [Bool.and_eq_true, decide_eq_true_eq] at hcheck
  obtain ⟨⟨⟨⟨⟨hfailed, hresults⟩, hrevision⟩, hundone⟩, hlive⟩, htick⟩ := hcheck
  obtain ⟨e, herror⟩ : ∃ e, (s.restructure rival).1.1 = .error (.net e) := by
    split at hfailed
    · next e herror => exact ⟨e, herror⟩
    · cases hfailed
  have hs : Traced s false := .new (Design.built_ofEdits _ _) hnew
  have hkept := (failed_elaboration hs).2.1 rival _ herror
  have hblocked := hkept.blocked (.inr fun hbare => by
    have hsame := congrArg Design.revision hbare
    exact hrevision hsame)
  refine ⟨s, _, _, hnew, ⟨e, Prod.ext (Prod.ext herror hresults) rfl⟩, hkept.untouched,
    Prod.ext hundone rfl, hlive, ?_⟩
  rcases hblocked _ (.perform .refl (.edit (.removeComponent ⟨1⟩)) rfl) with
    hhalted | ⟨generated, current, hstale⟩
  · have hother := congrArg Prod.fst hhalted.tick
    rw [show ((s.restructure rival).2.perform (.edit (.removeComponent ⟨1⟩))).2.tick.1 =
      .error (.staleSchedule 7 10) from htick] at hother
    cases hother
  · have hsame := congrArg Prod.fst hstale.tick
    rw [show ((s.restructure rival).2.perform (.edit (.removeComponent ⟨1⟩))).2.tick.1 =
      .error (.staleSchedule 7 10) from htick] at hsame
    obtain ⟨rfl, rfl⟩ := StepError.staleSchedule.inj (Except.error.inj hsame)
    exact hstale

end Simulator

end Cyclewise
