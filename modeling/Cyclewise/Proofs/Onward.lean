import Cyclewise.Proofs.Staleness

/-!
# What goes on until something happens

`Onward test s t` says that operations lead from `s` to `t`, and that the outcome of each of them
passes a test: say, that none of them elaborates the design.  A simulator that refuses (`Refuses`)
answers every tick and every run with one error and does nothing; it does so if it is halted, and if
it is not halted but its tick is older than its design (`Outdated`).  Both go on until an operation
with a certain outcome (`Onward.halted`, `Onward.outdated`): a halt is ended by a reset and by
attempts to elaborate that succeed (`Attempt`).
-/

namespace Cyclewise

namespace Outcome

/-- Whether the simulator was reset. -/
def isReset : Outcome → Bool
  | wasReset => true
  | _ => false

/-- Whether a simulator that was halted still is: it was neither reset nor elaborated. -/
def leavesHalt (o : Outcome) : Bool := !o.elaborates && !o.isReset

end Outcome

namespace Simulator

variable {μ : Type}

/-- Operations lead from one simulator to another one, each with an outcome that passes the test.
The aggregate of the design may be asked for at any time. -/
inductive Onward (test : Outcome → Bool) (s : Simulator μ) : Simulator μ → Prop where
  | refl : Onward test s s
  | perform {t} (h : Onward test s t) (c : Command μ) (hc : test (t.perform c).1 = true) :
      Onward test s (t.perform c).2
  | aggregate {t} (h : Onward test s t) :
      Onward test s { t with design.hierarchy := t.design.hierarchy.aggregate.2 }

/-- Every tick, and every run of some cycles, fails with the error and changes nothing. -/
structure Refuses (s : Simulator μ) (e : StepError) : Prop where
  tick : s.tick = (.error e, s)
  run : ∀ cycles, 0 < cycles → s.run cycles = (.error e, s)

/-- What an attempt to elaborate anew leaves of a halt and of the cycle: success ends a halt, and the
cycle goes on. -/
structure Attempt (s : Simulator μ) (outcome : Except ElaborationError Unit) (s' : Simulator μ) :
    Prop where
  halted : s'.halted = (s.halted && !outcome.isOk)
  cycle : s'.cycle = s.cycle

/-- The design was changed since the tick was made. -/
def Outdated (s : Simulator μ) : Prop := s.tickProcedure.revision < s.design.revision

variable {s t : Simulator μ}

/-! ## Settings -/

theorem config_of_moves {p p' : Simulator μ × Bool} (h : Relation.ReflTransGen Moves p p') :
    p'.1.config = p.1.config := by
  induction h with
  | refl => rfl
  | tail _ h ih =>
    refine Eq.trans ?_ ih
    cases h <;> rfl

/-- A design that was compiled has valid settings. -/
theorem maxCycles_of_compile {d : Design μ} {config : SimConfig} {e : Elaboration} {tick : Tick μ}
    (h : d.compile config = .ok (e, tick)) : 0 < config.maxCycles := by
  have helaborate := (Design.compile_eq_ok h).1
  by_contra hzero
  have hinvalid : config.validate = .error .zeroCycleBudget := by
    unfold SimConfig.validate
    rw [if_pos (by omega)]
  unfold Design.elaborate at helaborate
  rw [hinvalid] at helaborate
  cases helaborate

/-- The settings of a simulator allow at least one cycle. -/
theorem Reachable.maxCycles_pos (hs : s.Reachable) : 0 < s.config.maxCycles := by
  induction hs with
  | new _ h =>
    obtain ⟨elaboration, tickProcedure, hcompile, rfl⟩ := new_eq_ok h
    exact maxCycles_of_compile hcompile
  | @perform s _ c ih =>
    have hconfig := config_of_moves (perform_moves s false c)
    exact (congrArg (0 < ·.maxCycles) hconfig).mpr ih
  | aggregate _ ih => exact ih

/-! ## Refusals -/

/-- A tick that fails without any change is a refusal, and runs refuse with it. -/
theorem refuses_of_tick {e : StepError} (hs : s.Reachable) (h : s.tick = (.error e, s)) :
    s.Refuses e := by
  refine ⟨h, fun cycles hcycles => ?_⟩
  have hmax := hs.maxCycles_pos
  obtain ⟨n, hn⟩ : ∃ n, min cycles s.config.maxCycles = n + 1 :=
    Nat.exists_eq_succ_of_ne_zero (by omega)
  simp only [run, hn, ticks, h]

theorem refuses_of_halted (hs : s.Reachable) (h : s.halted = true) : s.Refuses .halted := by
  refine refuses_of_tick hs ?_
  unfold tick
  rw [if_pos h]

theorem refuses_of_outdated (hs : s.Reachable) (h : s.Outdated) :
    s.Refuses .halted ∨
      s.Refuses (.staleSchedule s.tickProcedure.revision s.design.revision) := by
  cases hhalted : s.halted with
  | true => exact .inl (refuses_of_halted hs hhalted)
  | false =>
    refine .inr (refuses_of_tick hs ?_)
    unfold tick
    rw [if_neg (by simp [hhalted]), if_pos (Nat.ne_of_lt h)]

/-! ## Attempts to elaborate -/

theorem reelaborate_attempt (s : Simulator μ) : s.Attempt s.reelaborate.1 s.reelaborate.2 := by
  unfold reelaborate
  split
  · exact ⟨(Bool.and_true _).symm, rfl⟩
  · exact ⟨(Bool.and_false _).symm, rfl⟩

theorem restructure_attempt (s : Simulator μ) (edits : List (Edit μ)) :
    s.Attempt (s.restructure edits).1.1 (s.restructure edits).2 := by
  obtain ⟨hhalted, hcycle⟩ :=
    reelaborate_attempt { s with design := (s.design.applyAll edits).design }
  unfold restructure
  simp only
  split
  · exact ⟨(Bool.and_true _).symm, rfl⟩
  · exact ⟨hhalted, hcycle⟩

/-! ## Until something happens -/

theorem Onward.reachable {test : Outcome → Bool} (h : Onward test s t) (hs : s.Reachable) :
    t.Reachable := by
  induction h with
  | refl => exact hs
  | perform _ c _ ih => exact .perform ih c
  | aggregate _ ih => exact .aggregate ih

/-- Neither an edit nor a value ends a halt. -/
theorem halted_perform (hs : s.Reachable) (h : s.halted = true) {c : Command μ}
    (hc : (s.perform c).1.leavesHalt = true) : (s.perform c).2.halted = true := by
  have hrefuses := refuses_of_halted hs h
  cases c with
  | poke a value =>
    show (s.poke a value).2.halted = true
    unfold poke
    split
    · exact h
    · exact h
  | tick =>
    show s.tick.2.halted = true
    rw [hrefuses.tick]
    exact h
  | run cycles =>
    show (s.run cycles).2.halted = true
    rcases Nat.eq_zero_or_pos cycles with rfl | hpos
    · simpa only [run, Nat.zero_min, ticks] using h
    · rw [hrefuses.run cycles hpos]
      exact h
  | reset => cases hc
  | reelaborate =>
    have hfailed : (!s.reelaborate.1.isOk && true) = true := hc
    rw [Bool.and_true] at hfailed
    refine (reelaborate_attempt s).halted.trans ?_
    rw [h, hfailed, Bool.and_true]
  | restructure edits =>
    have hfailed : (!(s.restructure edits).1.1.isOk && true) = true := hc
    rw [Bool.and_true] at hfailed
    refine (restructure_attempt s edits).halted.trans ?_
    rw [h, hfailed, Bool.and_true]
  | edit e =>
    show (s.edit e).2.halted = true
    unfold edit
    split
    · exact h
    · exact h

/-- A halt goes on until a reset or a successful elaboration. -/
theorem Onward.halted (h : Onward Outcome.leavesHalt s t) (hs : s.Reachable)
    (hhalted : s.halted = true) : t.halted = true := by
  induction h with
  | refl => exact hhalted
  | perform h c hc ih => exact halted_perform (h.reachable hs) ih hc
  | aggregate _ ih => exact ih

/-- An outdated tick stays outdated until a successful elaboration: the revision never goes back. -/
theorem Onward.outdated (h : Onward (fun o => !o.elaborates) s t) (hs : s.Outdated) :
    t.Outdated := by
  have htracked : t.Tracked true := by
    induction h with
    | refl => exact ⟨Nat.le_of_lt hs, fun _ => hs, Bool.noConfusion⟩
    | @perform t _ c hc ih =>
      have hnext := perform_preserves (P := fun p => p.1.Tracked p.2) Moves.tracked ih c
      have hmark : c.pendingAfter (t.perform c).1 true = true := by
        unfold Command.pendingAfter
        rw [hc, Bool.true_or, Bool.and_true]
      rwa [hmark] at hnext
    | aggregate _ ih => exact ⟨ih.le, ih.stale, Bool.noConfusion⟩
  exact htracked.stale rfl

end Simulator

end Cyclewise
