import Cyclewise.Proofs.Registers

/-!
# No stale cycles

`Simulator.Traced` follows a simulator through operations together with the mark whether its design
was changed since it was last elaborated.  A tick tells a change by the revision: the revision of
the design is that of the tick without a pending change, and it is greater with one (`Tracked`).  So
a simulator that is not halted and has no pending change runs just what the elaboration of its
present design gives, and otherwise it does nothing (`tick_current`).

An edit that declares no constraints is accepted without being counted, and leaves the tick as good
as it was (`idle_edit_tick`).
-/

namespace Cyclewise

namespace Simulator

variable {μ : Type}

/-- The simulators that operations lead to, with the mark whether the design was changed since it
was last elaborated. -/
inductive Traced : Simulator μ → Bool → Prop where
  | new {design config memory s} (hd : design.Built)
      (h : Simulator.new design config memory = .ok s) : Traced s false
  | perform {s pending} (hs : Traced s pending) (c : Command μ) :
      Traced (s.perform c).2 (c.pendingAfter (s.perform c).1 pending)
  | aggregate {s pending} (hs : Traced s pending) :
      Traced { s with design.hierarchy := s.design.hierarchy.aggregate.2 } pending

/-- What a tick runs when it runs the present design: the blocks of the schedule of its elaboration,
on the nets of its elaboration, each live block once and up to the first that fails. -/
structure RunsCurrent (s : Simulator μ) (outcome : Except StepError Unit) (s' : Simulator μ) :
    Prop where
  elaborated : s.design.elaborate s.config = .ok s.elaboration
  nets : s.store.reset = SignalStore.ofNets s.elaboration.nets
  order : s.tickProcedure.order = s.elaboration.schedule.order
  nodup : s.elaboration.schedule.order.Nodup
  live : ∀ b, b ∈ s.elaboration.schedule.order ↔ (s.design.hierarchy.block? b).isSome
  run : Step.runAll s.cycle
      (Tick.stepsOf s.design.hierarchy.block? s.elaboration.schedule.order) ⟨s.memory, s.store⟩ =
    (outcome, ⟨s'.memory, s'.store⟩)
  started : s.log.map Prod.fst <+: s.elaboration.schedule.order
  completed : outcome = .ok () → s.log.map Prod.fst = s.elaboration.schedule.order

variable {s s' : Simulator μ} {pending : Bool}

theorem Traced.reachable (hs : Traced s pending) : s.Reachable := by
  induction hs with
  | new hd h => exact .new hd h
  | perform _ c ih => exact .perform ih c
  | aggregate _ ih => exact .aggregate ih

/-- The cycles of a run start in states that ticks lead to, and leave the mark as it is. -/
theorem Traced.ticks (hs : Traced s pending) (n : Nat) : Traced (ticks n s).2 pending := by
  induction n generalizing s with
  | zero => exact hs
  | succ n ih =>
    have htick := hs.perform .tick
    rw [Command.pendingAfter_eq rfl rfl] at htick
    have hnext : Traced s.tick.2 pending := htick
    unfold Simulator.ticks
    split
    · next s' h =>
      rw [h] at hnext
      exact ih hnext
    · next e s' h =>
      rw [h] at hnext
      exact hnext

/-! ## Revisions -/

/-- Revisions tell whether a change is pending. -/
structure Tracked (s : Simulator μ) (pending : Bool) : Prop where
  le : s.tickProcedure.revision ≤ s.design.revision
  stale : pending = true → s.tickProcedure.revision < s.design.revision
  fresh : pending = false →
    s.design.compile s.config = .ok (s.elaboration, s.tickProcedure)

/-- A tick has the revision of the design that it was made of. -/
theorem revision_of_compile {d : Design μ} {config : SimConfig} {e : Elaboration} {t : Tick μ}
    (h : d.compile config = .ok (e, t)) : t.revision = d.revision := by
  obtain ⟨he, ht⟩ := Design.compile_eq_ok h
  obtain ⟨hrevision, -, -⟩ := Tick.generate_eq_ok ht
  exact hrevision.trans (Design.elaborate_eq_ok he).revision

theorem Tracked.of_compile
    (h : s.design.compile s.config = .ok (s.elaboration, s.tickProcedure)) : s.Tracked false :=
  ⟨(revision_of_compile h).le, Bool.noConfusion, fun _ => h⟩

theorem Moves.tracked {p p' : Simulator μ × Bool} (h : Moves p p') (hp : p.1.Tracked p.2) :
    p'.1.Tracked p'.2 := by
  cases h with
  | values => exact ⟨hp.le, hp.stale, hp.fresh⟩
  | @edit s pending e result design h =>
    have hle : s.tickProcedure.revision ≤ s.design.revision := hp.le
    rcases Design.apply_eq_ok h with ⟨hidle, rfl⟩ | ⟨hidle, hchange⟩
    · show s.Tracked (pending || !e.isIdle)
      rw [hidle, Bool.not_true, Bool.or_false]
      exact hp
    · have hrevision := hchange.revision
      rw [hidle, Bool.not_false, Bool.or_true]
      refine ⟨?_, fun _ => ?_, Bool.noConfusion⟩
      · show s.tickProcedure.revision ≤ design.revision
        omega
      · show s.tickProcedure.revision < design.revision
        omega
  | elaborate h => exact .of_compile h

theorem Traced.tracked (hs : Traced s pending) : s.Tracked pending := by
  induction hs with
  | @new design config memory s hd h =>
    obtain ⟨elaboration, tickProcedure, hcompile, rfl⟩ := new_eq_ok h
    exact .of_compile hcompile
  | perform _ c ih => exact perform_preserves (P := fun p => p.1.Tracked p.2) Moves.tracked ih c
  | aggregate _ ih => exact ⟨ih.le, ih.stale, ih.fresh⟩

/-! ## Ticks -/

/-- A tick that is not refused is a call of the tick procedure. -/
theorem call_eq_tick (hhalted : s.halted = false)
    (hrevision : s.tickProcedure.revision = s.design.revision) :
    s.tickProcedure.call s.cycle (⟨s.memory, s.store⟩ : Machine μ SignalStore) =
      (s.tick.1, ⟨s.tick.2.memory, s.tick.2.store⟩) := by
  unfold tick
  rw [if_neg (by simp [hhalted]), if_neg (by simp [hrevision])]
  split
  · next h => rw [h]
  · next h => rw [h]

/-- **Staleness.**  A tick is refused without any change when the simulator is halted or its design
was changed since it was last elaborated.  Otherwise it runs the present design. -/
theorem tick_current (hs : Traced s pending) :
    (s.halted = true → s.tick = (.error .halted, s)) ∧
    (s.halted = false → pending = true →
      s.tick =
        (.error (.staleSchedule s.tickProcedure.revision s.design.revision), s)) ∧
    (s.halted = false → pending = false → s.RunsCurrent s.tick.1 s.tick.2) := by
  have htracked := hs.tracked
  refine ⟨fun hhalted => ?_, fun hhalted hpending => ?_, fun hhalted hpending => ?_⟩
  · unfold tick
    rw [if_pos hhalted]
  · have hlt := htracked.stale hpending
    unfold tick
    rw [if_neg (by simp [hhalted]), if_pos (Nat.ne_of_lt hlt)]
  · have hcompile := htracked.fresh hpending
    obtain ⟨helaborate, hgenerate⟩ := Design.compile_eq_ok hcompile
    obtain ⟨-, hsteps, hall⟩ := Tick.generate_eq_ok hgenerate
    have hstages := Design.elaborate_eq_ok helaborate
    have hcoherent := hs.reachable.coherent
    have hschedule := hstages.schedules hcoherent.built
    have horder :
        s.tickProcedure.procedure.steps.map Step.block = s.elaboration.schedule.order := by
      rw [hsteps]
      exact Tick.map_block_stepsOf hall
    have hrun := call_eq_tick hhalted (revision_of_compile hcompile)
    unfold Tick.call at hrun
    rw [Procedure.run_eq] at hrun
    refine
      ⟨helaborate, hcoherent.store, horder, hschedule.nodup, fun b => ?_, hsteps ▸ hrun, ?_, ?_⟩
    · rw [hschedule.perm.mem_iff, hstages.mem_keys hcoherent.built]
    · rw [← horder]
      exact Step.map_fst_log_isPrefix ..
    · intro hok
      rw [hok] at hrun
      rw [← horder]
      exact Step.map_fst_log hrun

/-- Declaring no constraints leaves the tick of the present design in place, and connecting two
signals makes it stale. -/
theorem counting_current : ∃ s : Simulator Unit, Simulator.new counting {} () = .ok s ∧
    (s.edit (.addConstraints Hierarchy.top [])).2.RunsCurrent
      (s.edit (.addConstraints Hierarchy.top [])).2.tick.1
      (s.edit (.addConstraints Hierarchy.top [])).2.tick.2 ∧
    (s.edit (.connect ⟨1⟩ ⟨2⟩)).2.tick =
      (.error (.staleSchedule 7 8), (s.edit (.connect ⟨1⟩ ⟨2⟩)).2) := by
  have hcheck : ((Simulator.new counting {} ()).toOption.any fun s =>
      decide ((s.edit (.addConstraints Hierarchy.top [])).2.halted = false) &&
      decide ((s.edit (.connect ⟨1⟩ ⟨2⟩)).2.halted = false) &&
      decide ((s.edit (.connect ⟨1⟩ ⟨2⟩)).2.tickProcedure.revision = 7) &&
      decide ((s.edit (.connect ⟨1⟩ ⟨2⟩)).2.design.revision = 8)) = true := by
    decide +kernel
  obtain ⟨s, hnew, hcheck⟩ := Design.exists_ok_of_any hcheck
  simp only [Bool.and_eq_true, decide_eq_true_eq] at hcheck
  obtain ⟨⟨⟨hidle, hconnected⟩, hgenerated⟩, hcurrent⟩ := hcheck
  have hs : Traced s false := .new (Design.built_ofEdits _ _) hnew
  have hsame : Traced (s.edit (.addConstraints Hierarchy.top [])).2 false := by
    have h := hs.perform (.edit (.addConstraints Hierarchy.top []))
    have hmark : (Command.edit (.addConstraints Hierarchy.top []) : Command Unit).pendingAfter
        (s.perform (.edit (.addConstraints Hierarchy.top []))).1 false = false := by
      refine (Command.pendingAfter_edit ..).trans ?_
      rw [Edit.isIdle, Bool.not_true, Bool.and_false, Bool.or_false]
    rwa [hmark] at h
  have hchanged : Traced (s.edit (.connect ⟨1⟩ ⟨2⟩)).2 true := hs.perform (.edit (.connect ⟨1⟩ ⟨2⟩))
  have hstale := (tick_current hchanged).2.1 hconnected rfl
  rw [hgenerated, hcurrent] at hstale
  exact ⟨s, hnew, (tick_current hsame).2.2 hidle rfl, hstale⟩

/-- Block 0 fails in its first call. -/
def interrupted : Design CallCounts :=
  Design.ofEdits "top"
    [.declare "a" .wire "Bits8" Hierarchy.top, .declare "b" .wire "Bits8" Hierarchy.top,
      .registerBlock Hierarchy.top (.failing "early" ⟨0⟩ 0 0),
      .registerBlock Hierarchy.top (.constant "late" ⟨1⟩ 1)]

/-- A tick runs all blocks although an edit succeeded after the elaboration, namely one that
declares no constraints.  And a tick that is not refused leaves a live block out, namely one that
comes after a block that fails. -/
theorem idle_edit_tick :
    (∃ s : Simulator Unit, Simulator.new counting {} () = .ok s ∧
      (s.edit (.addConstraints Hierarchy.top [])).1 = .ok .done ∧
      (s.edit (.addConstraints Hierarchy.top [])).2.tick.1 = .ok () ∧
      (s.edit (.addConstraints Hierarchy.top [])).2.log.map Prod.fst = [⟨2⟩, ⟨0⟩, ⟨1⟩]) ∧
    ∃ s : Simulator CallCounts, Simulator.new interrupted {} ⟨[]⟩ = .ok s ∧
      (s.design.hierarchy.block? ⟨1⟩).isSome = true ∧
      s.tick.1 = .error (.blockFailed ⟨0⟩ "early"
        (.executionFailed "deliberate failure after 0 successful calls")) ∧
      s.log.map Prod.fst = [⟨0⟩] := by
  have hidle : ((Simulator.new counting {} ()).toOption.any fun s =>
      decide ((s.edit (.addConstraints Hierarchy.top [])).1 = .ok .done) &&
      decide ((s.edit (.addConstraints Hierarchy.top [])).2.tick.1 = .ok ()) &&
      decide ((s.edit (.addConstraints Hierarchy.top [])).2.log.map Prod.fst =
        [⟨2⟩, ⟨0⟩, ⟨1⟩])) = true := by
    decide +kernel
  have hfailed : ((Simulator.new interrupted {} ⟨[]⟩).toOption.any fun s =>
      (s.design.hierarchy.block? ⟨1⟩).isSome &&
      decide (s.tick.1 = .error (.blockFailed ⟨0⟩ "early"
        (.executionFailed "deliberate failure after 0 successful calls"))) &&
      decide (s.log.map Prod.fst = [⟨0⟩])) = true := by
    decide +kernel
  obtain ⟨s, hnew, hidle⟩ := Design.exists_ok_of_any hidle
  obtain ⟨s', hnew', hfailed⟩ := Design.exists_ok_of_any hfailed
  simp only [Bool.and_eq_true, decide_eq_true_eq] at hidle hfailed
  exact ⟨⟨s, hnew, hidle.1.1, hidle.1.2, hidle.2⟩, s', hnew', hfailed.1.1, hfailed.1.2, hfailed.2⟩

end Simulator

end Cyclewise
