import Cyclewise.Proofs.Modes
import Cyclewise.Proofs.Onward
import Cyclewise.Proofs.SignalErrors

/-!
# Cycles, failures and halts

A tick is refused, or it completes a cycle, or it fails at one of the scheduled blocks
(`exists_failsAt`).  A failure leaves what was written up to it and halts the simulator, and the
cycle does not count (`FailsAt.stops`).  A run calls ticks up to the first that fails
(`run_calls`).  So the cycle is the number of ticks that succeeded, called directly or by a run
(`Recorded.cycle_eq`).
-/

namespace Cyclewise

namespace Simulator

variable {μ : Type} {s s' : Simulator μ}

/-! ## Failures -/

/-- In the next cycle the first `k` scheduled blocks succeed, and the next one, `b`, fails.  The
machine is as in `before` when the block starts and as in `after` when it fails. -/
structure FailsAt (s : Simulator μ) (k : Nat) (b : BlockId) (block : UpdateBlock μ)
    (reason : BlockError) (before after : Machine μ SignalStore) : Prop where
  scheduled : s.elaboration.schedule.order[k]? = some b
  live : s.design.hierarchy.block? b = some block
  start : Step.runAll s.cycle
      (Tick.stepsOf s.design.hierarchy.block? (s.elaboration.schedule.order.take k))
      ⟨s.memory, s.store⟩ = (.ok (), before)
  fails : (block.behavior b s.cycle before.memory).run before.signals =
    ((.error reason, after.memory), after.signals)

/-- A tick that fails at the `k`-th scheduled block names the block and halts the simulator.  No
later block runs, what the blocks wrote up to the failure stays, and all else is as before. -/
structure Stops (s : Simulator μ) (k : Nat) (b : BlockId) (block : UpdateBlock μ)
    (reason : BlockError) (after : Machine μ SignalStore) : Prop where
  tick : s.tick = (.error (.blockFailed b block.name reason),
    { s with memory := after.memory, store := after.signals, halted := true })
  ran : s.tickLog.map Prod.fst = s.elaboration.schedule.order.take (k + 1)
  written : after.signals = s.store.replay (s.tickLog.flatMap Prod.snd)

/-- A simulator whose tick is neither refused nor stale runs the steps of its present design. -/
theorem Traced.steps_eq {pending : Bool} (hs : Traced s pending)
    (hrevision : s.tickProcedure.revision = s.design.revision) :
    s.tickProcedure.procedure.steps =
        Tick.stepsOf s.design.hierarchy.block? s.elaboration.schedule.order ∧
      ∀ b ∈ s.elaboration.schedule.order, (s.design.hierarchy.block? b).isSome := by
  have htracked := hs.tracked
  cases pending with
  | true => exact absurd hrevision (Nat.ne_of_lt (htracked.stale rfl))
  | false =>
    obtain ⟨-, hgenerate⟩ := Design.compile_eq_ok (htracked.fresh rfl)
    exact (Tick.generate_eq_ok hgenerate).2

/-- What the tick procedure makes of a simulator, when the tick is not refused. -/
theorem tick_eq_runAll (hhalted : s.halted = false)
    (hrevision : s.tickProcedure.revision = s.design.revision) {outcome : Except StepError Unit}
    {m : Machine μ SignalStore}
    (h : Step.runAll s.cycle s.tickProcedure.procedure.steps ⟨s.memory, s.store⟩ = (outcome, m)) :
    s.tick = (outcome, match outcome with
      | .ok () =>
        { s with
          memory := m.memory
          store := m.signals
          cycle := s.cycle + 1
          lastTick := ⟨s.cycle + 1, s.tickProcedure.size⟩ }
      | .error _ => { s with memory := m.memory, store := m.signals, halted := true }) := by
  have hcall : s.tickProcedure.call s.cycle ⟨s.memory, s.store⟩ = (outcome, m) := by
    unfold Tick.call
    rw [Procedure.run_eq]
    exact h
  unfold tick
  rw [if_neg (by simp [hhalted]), if_neg (by simp [hrevision]), hcall]
  cases outcome with
  | ok => rfl
  | error => rfl

theorem tickLog_eq (hhalted : s.halted = false)
    (hrevision : s.tickProcedure.revision = s.design.revision) :
    s.tickLog = Step.log s.cycle s.tickProcedure.procedure.steps
      (⟨s.memory, s.store⟩ : Machine μ SignalStore) := by
  unfold tickLog
  rw [if_neg (by simp [hhalted]), if_neg (by simp [hrevision]), Procedure.log_eq]

section

variable {pending : Bool} (hs : Traced s pending) (hhalted : s.halted = false)
  (hrevision : s.tickProcedure.revision = s.design.revision)

include hs hhalted hrevision

theorem FailsAt.stops {k : Nat} {b : BlockId} {block : UpdateBlock μ} {reason : BlockError}
    {before after : Machine μ SignalStore} (h : s.FailsAt k b block reason before after) :
    s.Stops k b block reason after := by
  obtain ⟨hsteps, hall⟩ := hs.steps_eq hrevision
  obtain ⟨hk, hb⟩ := List.getElem?_eq_some_iff.1 h.scheduled
  have hsplit : s.tickProcedure.procedure.steps =
      Tick.stepsOf s.design.hierarchy.block? (s.elaboration.schedule.order.take k) ++
        ⟨b, block.name, block.behavior⟩ ::
          Tick.stepsOf s.design.hierarchy.block? (s.elaboration.schedule.order.drop (k + 1)) := by
    have horder : s.elaboration.schedule.order = s.elaboration.schedule.order.take k ++
        b :: s.elaboration.schedule.order.drop (k + 1) := by
      rw [← hb, List.cons_getElem_drop_succ, List.take_append_drop]
    rw [hsteps]
    conv_lhs => rw [horder]
    unfold Tick.stepsOf
    rw [List.filterMap_append, List.filterMap_cons, h.live]
    rfl
  have hfails : (⟨b, block.name, block.behavior⟩ : Step μ).run s.cycle before =
      (.error (.blockFailed b block.name reason), after) := by
    unfold Step.run
    rw [h.fails]
  obtain ⟨hrun, hlog⟩ := Step.runAll_of_fails h.start hfails
    (Tick.stepsOf s.design.hierarchy.block? (s.elaboration.schedule.order.drop (k + 1)))
  rw [← hsplit] at hrun hlog
  refine ⟨tick_eq_runAll hhalted hrevision hrun, ?_, ?_⟩
  · rw [tickLog_eq hhalted hrevision, hlog, List.take_add_one, h.scheduled,
      Tick.map_block_stepsOf fun b hb => hall b (List.mem_of_mem_take hb)]
    rfl
  · have hreplay := Step.runAll_replay s.cycle s.tickProcedure.procedure.steps ⟨s.memory, s.store⟩
    rwa [hrun, ← tickLog_eq hhalted hrevision] at hreplay

/-- A tick that is neither refused nor successful fails at one of the scheduled blocks. -/
theorem exists_failsAt {e : StepError} (h : s.tick.1 = .error e) :
    ∃ k b block reason before after, s.FailsAt k b block reason before after := by
  obtain ⟨hsteps, hall⟩ := hs.steps_eq hrevision
  cases hrun : Step.runAll s.cycle s.tickProcedure.procedure.steps
      (⟨s.memory, s.store⟩ : Machine μ SignalStore) with
  | mk outcome m =>
    have htick := congrArg Prod.fst (tick_eq_runAll hhalted hrevision hrun)
    obtain rfl : outcome = .error e := htick.symm.trans h
    obtain ⟨first, step, rest, m₁, hsplit, hbefore, hstep⟩ := Step.exists_of_runAll_error hrun
    rw [hsteps] at hsplit
    have hmem : step ∈ Tick.stepsOf s.design.hierarchy.block? s.elaboration.schedule.order := by
      rw [hsplit]
      exact List.mem_append_right _ List.mem_cons_self
    obtain ⟨-, block, hblock, heq⟩ := Tick.mem_stepsOf.1 hmem
    have hscheduled : s.elaboration.schedule.order[first.length]? = some step.block := by
      rw [← Tick.map_block_stepsOf hall, hsplit, List.getElem?_map,
        List.getElem?_append_right (Nat.le_refl _), Nat.sub_self]
      rfl
    have hfirst : first = Tick.stepsOf s.design.hierarchy.block?
        (s.elaboration.schedule.order.take first.length) := by
      rw [← Tick.take_stepsOf hall, hsplit, List.take_left']
      rfl
    unfold Step.run at hstep
    split at hstep
    · cases hstep
    · next reason memory signals hprogram =>
      obtain ⟨-, rfl⟩ := Prod.mk.inj hstep
      refine ⟨first.length, step.block, block, reason, m₁, ⟨memory, signals⟩, hscheduled, hblock,
        ?_, ?_⟩
      · rw [← hfirst]
        exact hbefore
      · rw [heq] at hprogram
        exact hprogram

end

/-! ## Runs -/

/-- The answers of `n` ticks in a row, up to the first failure. -/
def answers : Nat → Simulator μ → List (Except StepError Unit)
  | 0, _ => []
  | n + 1, s =>
    match s.tick with
    | (.ok (), s) => .ok () :: answers n s
    | (.error e, _) => [.error e]

/-- The answers of the ticks that an operation calls. -/
def answersOf (s : Simulator μ) : Command μ → List (Except StepError Unit)
  | .tick => [s.tick.1]
  | .run cycles => answers (min cycles s.config.maxCycles) s
  | _ => []

/-- The run is a number of ticks in a row: all that were asked for and are allowed, or those up to
the first that fails. -/
structure Calls (s : Simulator μ) (cycles : Nat) : Prop where
  ticks : s.performAll ((s.answersOf (.run cycles)).map fun _ => .tick) =
    ((s.answersOf (.run cycles)).map .ticked, (s.run cycles).2)
  stop : (s.answersOf (.run cycles) = List.replicate (min cycles s.config.maxCycles) (.ok ()) ∧
      (s.run cycles).1 = .ok (min cycles s.config.maxCycles)) ∨
    ∃ k e, k < min cycles s.config.maxCycles ∧
      s.answersOf (.run cycles) = List.replicate k (.ok ()) ++ [.error e] ∧
      (s.run cycles).1 = .error e

theorem performAll_answers (n : Nat) (s : Simulator μ) :
    s.performAll ((answers n s).map fun _ => .tick) =
      ((answers n s).map .ticked, (Simulator.ticks n s).2) := by
  induction n generalizing s with
  | zero => rfl
  | succ n ih =>
    unfold answers Simulator.ticks
    have hperform : s.perform .tick = (.ticked s.tick.1, s.tick.2) := rfl
    rcases htick : s.tick with ⟨e | _, s'⟩ <;> rw [htick] at hperform
    · simp only [List.map_cons, List.map_nil, performAll, hperform]
    · simp only [List.map_cons, performAll, hperform, ih s']

theorem answers_cases (n : Nat) (s : Simulator μ) :
    (answers n s = List.replicate n (.ok ()) ∧ (Simulator.ticks n s).1 = .ok ()) ∨
      ∃ k e, k < n ∧ answers n s = List.replicate k (.ok ()) ++ [.error e] ∧
        (Simulator.ticks n s).1 = .error e := by
  induction n generalizing s with
  | zero => exact .inl ⟨rfl, rfl⟩
  | succ n ih =>
    unfold answers Simulator.ticks
    rcases s.tick with ⟨e | _, s'⟩
    · exact .inr ⟨0, e, Nat.succ_pos n, rfl, rfl⟩
    · rcases ih s' with ⟨hanswers, hticks⟩ | ⟨k, e, hk, hanswers, hticks⟩
      · exact .inl ⟨congrArg (Except.ok () :: ·) hanswers, hticks⟩
      · exact .inr ⟨k + 1, e, Nat.succ_lt_succ hk, congrArg (Except.ok () :: ·) hanswers, hticks⟩

theorem run_eq (s : Simulator μ) (cycles : Nat) :
    s.run cycles =
      ((Simulator.ticks (min cycles s.config.maxCycles) s).1.map
        fun _ => min cycles s.config.maxCycles,
        (Simulator.ticks (min cycles s.config.maxCycles) s).2) := by
  unfold run
  simp only
  split
  · next h => rw [h]; rfl
  · next h => rw [h]; rfl

theorem run_calls (s : Simulator μ) (cycles : Nat) : s.Calls cycles := by
  have hrun := s.run_eq cycles
  refine ⟨?_, ?_⟩
  · rw [hrun]
    exact performAll_answers ..
  · rw [hrun]
    rcases answers_cases (min cycles s.config.maxCycles) s with
      ⟨hanswers, hticks⟩ | ⟨k, e, hk, hanswers, hticks⟩
    · exact .inl ⟨hanswers, by rw [hticks]; rfl⟩
    · exact .inr ⟨k, e, hk, hanswers, by rw [hticks]; rfl⟩

/-! ## Counting -/

/-- The simulators that operations lead to, with the answers of all ticks since the start or the
last reset, called directly or by runs. -/
inductive Recorded : Simulator μ → List (Except StepError Unit) → Prop where
  | new {design config memory s} (hd : design.Built)
      (h : Simulator.new design config memory = .ok s) : Recorded s []
  | perform {s record} (hs : Recorded s record) (c : Command μ) :
      Recorded (s.perform c).2
        (if (s.perform c).1.isReset then [] else record ++ s.answersOf c)
  | aggregate {s record} (hs : Recorded s record) :
      Recorded { s with design.hierarchy := s.design.hierarchy.aggregate.2 } record

theorem Recorded.traced {record : List (Except StepError Unit)} (hs : Recorded s record) :
    ∃ pending, Traced s pending := by
  induction hs with
  | new hd h => exact ⟨false, .new hd h⟩
  | perform _ c ih =>
    obtain ⟨pending, hs⟩ := ih
    exact ⟨_, hs.perform c⟩
  | aggregate _ ih =>
    obtain ⟨pending, hs⟩ := ih
    exact ⟨pending, hs.aggregate⟩

/-- A tick counts one if it succeeds. -/
theorem cycle_tick (s : Simulator μ) :
    s.tick.2.cycle = s.cycle + [s.tick.1].countP Except.isOk := by
  unfold tick
  split
  · rfl
  · split
    · rfl
    · split
      · rfl
      · rfl

theorem cycle_ticks (n : Nat) (s : Simulator μ) :
    (ticks n s).2.cycle = s.cycle + (answers n s).countP Except.isOk := by
  induction n generalizing s with
  | zero => rfl
  | succ n ih =>
    have hcycle := cycle_tick s
    unfold ticks answers
    rcases htick : s.tick with ⟨e | _, s'⟩ <;> rw [htick] at hcycle
    · exact hcycle
    · refine (ih s').trans ?_
      rw [hcycle, List.countP_cons, List.countP_cons, List.countP_nil, Nat.zero_add]
      exact Nat.add_right_comm ..

/-- Operations count what their ticks count, and a reset starts anew. -/
theorem cycle_perform (s : Simulator μ) (c : Command μ) :
    (s.perform c).2.cycle = if (s.perform c).1.isReset then 0
      else s.cycle + (s.answersOf c).countP Except.isOk := by
  cases c with
  | poke a value =>
    show (s.poke a value).2.cycle = s.cycle
    unfold poke
    split <;> rfl
  | tick => exact cycle_tick s
  | run cycles =>
    show (s.run cycles).2.cycle = _
    rw [run_eq]
    exact cycle_ticks ..
  | reset => rfl
  | reelaborate => exact (reelaborate_attempt s).cycle
  | restructure edits => exact (restructure_attempt s edits).cycle
  | edit e =>
    show (s.edit e).2.cycle = s.cycle
    unfold edit
    split <;> rfl

theorem Recorded.cycle_eq {record : List (Except StepError Unit)} (hs : Recorded s record) :
    s.cycle = record.countP Except.isOk := by
  induction hs with
  | new _ h =>
    obtain ⟨elaboration, tickProcedure, -, rfl⟩ := new_eq_ok h
    rfl
  | @perform s record _ c ih =>
    rw [cycle_perform]
    split
    · rfl
    · rw [List.countP_append, ih]
  | aggregate _ ih => exact ih

/-! ## The protocol -/

/-- A reset and a successful elaboration end a halt. -/
theorem halted_perform_eq_false (s : Simulator μ) {c : Command μ}
    (hc : (s.perform c).1.leavesHalt = false) : (s.perform c).2.halted = false := by
  cases c with
  | poke => cases hc
  | tick => cases hc
  | run => cases hc
  | reset => rfl
  | reelaborate =>
    have hok : (!s.reelaborate.1.isOk && true) = false := hc
    rw [Bool.and_true] at hok
    refine (reelaborate_attempt s).halted.trans ?_
    rw [hok, Bool.and_false]
  | restructure edits =>
    have hok : (!(s.restructure edits).1.1.isOk && true) = false := hc
    rw [Bool.and_true] at hok
    refine (restructure_attempt s edits).halted.trans ?_
    rw [hok, Bool.and_false]
  | edit => cases hc

/-- **Cycles.**  In a history of a simulator the cycle is the number of ticks that succeeded since
the start or the last reset, called directly or by runs.  A tick that is not refused either
succeeds or fails at one of the scheduled blocks, which it names; what was written up to the failure
stays, and the simulator is halted.  From then on it refuses ticks and runs, up to a reset or a
successful elaboration, which end the halt.  A run calls ticks up to the first that fails, but no
more than the settings allow. -/
theorem tick_protocol {record : List (Except StepError Unit)} (hs : Recorded s record) :
    s.cycle = record.countP Except.isOk ∧
    (s.halted = false → s.tickProcedure.revision = s.design.revision →
      (∀ k b block reason before after, s.FailsAt k b block reason before after →
        s.Stops k b block reason after ∧
        ∀ t, s.tick.2.Onward Outcome.leavesHalt t → t.Refuses .halted) ∧
      (s.tick.1 = .ok () ∨
        ∃ k b block reason before after, s.FailsAt k b block reason before after)) ∧
    (s.halted = true → ∀ t, s.Onward Outcome.leavesHalt t → t.Refuses .halted) ∧
    (∀ c, (s.perform c).1.leavesHalt = false → (s.perform c).2.halted = false) ∧
    ∀ cycles, s.Calls cycles := by
  obtain ⟨pending, htraced⟩ := hs.traced
  have hreachable := htraced.reachable
  have hrefuses : ∀ {s t : Simulator μ}, s.Reachable → s.halted = true →
      s.Onward Outcome.leavesHalt t → t.Refuses .halted := fun hs hhalted ht =>
    refuses_of_halted (ht.reachable hs) (ht.halted hs hhalted)
  refine ⟨hs.cycle_eq, fun hhalted hrevision => ⟨?_, ?_⟩, fun hhalted t ht =>
    hrefuses hreachable hhalted ht, fun c hc => halted_perform_eq_false s hc, run_calls s⟩
  · intro k b block reason before after hfails
    have hstops := hfails.stops htraced hhalted hrevision
    refine ⟨hstops, fun t ht => hrefuses (hreachable.perform .tick) ?_ ht⟩
    show s.tick.2.halted = true
    rw [hstops.tick]
  · cases htick : s.tick.1 with
    | ok => exact .inl rfl
    | error e => exact .inr (exists_failsAt htraced hhalted hrevision htick)

/-- A count, a block that gives up when the count is 5, and a block after it. -/
def metered : Design Unit :=
  Design.ofEdits "top"
    [.declare "count" .wire "Bits8" Hierarchy.top, .declare "seen" .wire "Bits8" Hierarchy.top,
      .declare "late" .wire "Bits8" Hierarchy.top,
      .registerBlock Hierarchy.top (.increment "step" ⟨0⟩),
      .registerBlock Hierarchy.top guard,
      .registerBlock Hierarchy.top (.copy "late" ⟨1⟩ ⟨2⟩)]

/-- After four cycles, of a run that asks for four, the second block fails, and the third one does
not run.  Then the simulator refuses to run until it is reset. -/
theorem metered_run : ∃ s : Simulator Unit, Simulator.new metered {} () = .ok s ∧
    (s.run 4).1 = .ok 4 ∧ (s.run 4).2.cycle = 4 ∧
    (∃ block reason before after, (s.run 4).2.FailsAt 1 ⟨1⟩ block reason before after ∧
      (s.run 4).2.Stops 1 ⟨1⟩ block reason after) ∧
    (s.run 4).2.tick.2.peek ⟨0⟩ = some 5 ∧ (s.run 4).2.tick.2.peek ⟨2⟩ = some 4 ∧
    (s.run 4).2.tick.2.Refuses .halted ∧ (s.run 4).2.tick.2.reset.halted = false := by
  have hcheck : ((Simulator.new metered {} ()).toOption.any fun s =>
      decide ((s.run 4).1 = .ok 4) && decide ((s.run 4).2.halted = false) &&
      decide ((s.run 4).2.tickProcedure.revision = (s.run 4).2.design.revision) &&
      decide ((s.run 4).2.tickLog.map Prod.fst = [⟨0⟩, ⟨1⟩]) &&
      decide ((s.run 4).2.elaboration.schedule.order = [⟨0⟩, ⟨1⟩, ⟨2⟩]) &&
      decide ((s.run 4).2.tick.1.isOk = false) &&
      decide ((s.run 4).2.tick.2.peek ⟨0⟩ = some 5) &&
      decide ((s.run 4).2.tick.2.peek ⟨2⟩ = some 4)) = true := by
    decide +kernel
  obtain ⟨s, hnew, hcheck⟩ := Design.exists_ok_of_any hcheck
  simp only [Bool.and_eq_true, decide_eq_true_eq] at hcheck
  obtain ⟨⟨⟨⟨⟨⟨⟨hrun, hhalted⟩, hrevision⟩, hlog⟩, horder⟩, hfailed⟩, hcount⟩, hlate⟩ := hcheck
  have hd : metered.Built := Design.built_ofEdits _ _
  obtain ⟨hcycle, hfails, -⟩ := tick_protocol ((Recorded.new hd hnew).perform (.run 4))
  obtain ⟨hstops, hok | ⟨k, b, block, reason, before, after, hfails⟩⟩ := hfails hhalted hrevision
  · have hok' : (s.run 4).2.tick.1 = .ok () := hok
    rw [hok'] at hfailed
    cases hfailed
  obtain ⟨hstop, hrefuses⟩ := hstops k b block reason before after hfails
  -- the log has the blocks up to the one that failed
  have hran := hstop.ran
  have hscheduled := hfails.scheduled
  change (s.run 4).2.tickLog.map Prod.fst = (s.run 4).2.elaboration.schedule.order.take (k + 1)
    at hran
  change (s.run 4).2.elaboration.schedule.order[k]? = some b at hscheduled
  rw [hlog, horder] at hran
  rw [horder] at hscheduled
  obtain rfl : k = 1 := by
    have hlength := congrArg List.length hran
    simp only [List.length_cons, List.length_nil, List.length_take] at hlength
    omega
  obtain rfl : ⟨1⟩ = b := Option.some.inj hscheduled
  have hanswers : s.answersOf (.run 4) = List.replicate 4 (.ok ()) := by
    rcases (run_calls s 4).stop with ⟨h, -⟩ | ⟨k, e, -, -, h⟩
    · obtain ⟨elaboration, tickProcedure, -, rfl⟩ := new_eq_ok hnew
      exact h
    · rw [hrun] at h
      cases h
  refine ⟨s, hnew, hrun, hcycle.trans ?_, ⟨block, reason, before, after, hfails, hstop⟩, hcount,
    hlate, hrefuses _ .refl, rfl⟩
  show ([] ++ s.answersOf (.run 4)).countP Except.isOk = 4
  rw [hanswers]
  rfl

end Simulator

end Cyclewise
