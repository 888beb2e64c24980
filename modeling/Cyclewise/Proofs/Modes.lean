import Cyclewise.History
import Cyclewise.Proofs.Tick

/-!
# The two forms of a tick

The settings tell whether a tick is a list of steps or a tree of them.  `Procedure.log` follows a
procedure in its own form and lists the blocks that run, each with its reads and writes; either form
logs what the list of its steps logs (`Procedure.log_eq`).

Two simulators agree when they differ in the mode and in the form of the tick only.  Every operation
gives one answer on both and leaves them in agreement (`Agrees.perform`).  So the mode shows in no
outcome of a list of operations, in no value and in no block that runs (`modes_agree`).
-/

namespace Cyclewise

/-! ## Results that match -/

/-- One failure twice, or two successes with related results. -/
inductive Matches {ε α β : Type} (R : α → β → Prop) : Except ε α → Except ε β → Prop where
  | error (e : ε) : Matches R (.error e) (.error e)
  | ok {a b} (h : R a b) : Matches R (.ok a) (.ok b)

namespace Matches

variable {ε ε' α β γ δ : Type} {R : α → β → Prop} {S : γ → δ → Prop} {r : Except ε α}
  {r' : Except ε β}

theorem bind {f : α → Except ε γ} {g : β → Except ε δ} (h : Matches R r r')
    (hnext : ∀ {a b}, R a b → Matches S (f a) (g b)) : Matches S (r >>= f) (r' >>= g) := by
  cases h with
  | error e => exact .error e
  | ok h => exact hnext h

theorem mapError (f : ε → ε') (h : Matches R r r') : Matches R (r.mapError f) (r'.mapError f) := by
  cases h with
  | error e => exact .error (f e)
  | ok h => exact .ok h

theorem mono {T : α → β → Prop} (h : Matches R r r') (hmono : ∀ {a b}, R a b → T a b) :
    Matches T r r' := by
  cases h with
  | error e => exact .error e
  | ok h => exact .ok (hmono h)

/-- A result matches itself. -/
theorem refl (r : Except ε α) : Matches Eq r r := by
  cases r with
  | error e => exact .error e
  | ok a => exact .ok rfl

end Matches

variable {μ σ : Type} [SignalState σ]

/-! ## What a procedure runs -/

theorem Step.log_append (cycle : Nat) (xs ys : List (Step μ)) (m : Machine μ σ) :
    log cycle (xs ++ ys) m = log cycle xs m ++
      match runAll cycle xs m with
      | (.ok (), m) => log cycle ys m
      | (.error _, _) => [] := by
  induction xs generalizing m with
  | nil => rfl
  | cons s xs ih =>
    rw [List.cons_append, log, log, runAll, List.cons_append]
    -- the run of the first step decides all three
    rcases s.run cycle m with ⟨_ | _, m₁⟩
    · exact (List.append_nil _).symm
    · exact congrArg _ (ih m₁)

namespace Fused

/-- The blocks that a tree runs, with their reads and writes, up to the first failure. -/
def log (cycle : Nat) : Fused μ → Machine μ σ → List (BlockId × List Event)
  | idle, _ => []
  | leaf step, m => [(step.block, step.trace cycle m)]
  | pair first second, m =>
    first.log cycle m ++
      match first.run cycle m with
      | (.ok (), m) => second.log cycle m
      | (.error _, _) => []

/-- A tree logs what the list of its steps logs. -/
theorem log_eq (cycle : Nat) (tree : Fused μ) (m : Machine μ σ) :
    tree.log cycle m = Step.log cycle tree.steps m := by
  induction tree generalizing m with
  | idle => rfl
  | leaf step =>
    rw [log, steps, Step.log]
    split <;> rfl
  | pair first second ih ih' =>
    rw [log, steps, Step.log_append, ih, run_eq]
    split
    · next m₁ _ => rw [ih']
    · rfl

end Fused

namespace Procedure

/-- The blocks that a procedure runs, with their reads and writes, up to the first failure. -/
def log (cycle : Nat) (p : Procedure μ) (m : Machine μ σ) : List (BlockId × List Event) :=
  match p with
  | sequence steps => Step.log cycle steps m
  | fused tree => tree.log cycle m

/-- Both forms log the list of steps. -/
theorem log_eq (cycle : Nat) (p : Procedure μ) (m : Machine μ σ) :
    p.log cycle m = Step.log cycle p.steps m := by
  cases p with
  | sequence list => rfl
  | fused tree => exact tree.log_eq cycle m

end Procedure

namespace Simulator

/-! ## What operations run -/

/-- What the next tick runs; nothing if it is refused. -/
def tickLog (s : Simulator μ) : List (BlockId × List Event) :=
  if s.halted then []
  else if s.tickProcedure.revision ≠ s.design.revision then []
  else s.tickProcedure.procedure.log s.cycle (⟨s.memory, s.store⟩ : Machine μ SignalStore)

/-- What the next `n` ticks run, up to the first that fails. -/
def ticksLog : Nat → Simulator μ → List (BlockId × List Event)
  | 0, _ => []
  | n + 1, s =>
    s.tickLog ++
      match s.tick with
      | (.ok (), s) => ticksLog n s
      | (.error _, _) => []

/-- What an operation runs. -/
def commandLog (s : Simulator μ) : Command μ → List (BlockId × List Event)
  | .tick => s.tickLog
  | .run cycles => ticksLog (min cycles s.config.maxCycles) s
  | _ => []

/-- What operations run, one after the other. -/
def historyLog (s : Simulator μ) : List (Command μ) → List (BlockId × List Event)
  | [] => []
  | c :: rest => s.commandLog c ++ (s.perform c).2.historyLog rest

/-! ## Agreement -/

/-- The simulator in another mode, with a tick in another form. -/
def reform (s : Simulator μ) (mode : TickMode) (p : Procedure μ) : Simulator μ :=
  { s with config.mode := mode, tickProcedure.procedure := p }

section

variable (s : Simulator μ) (mode : TickMode) (p : Procedure μ)

@[simp] theorem reform_design : (s.reform mode p).design = s.design := rfl

@[simp] theorem reform_store : (s.reform mode p).store = s.store := rfl

@[simp] theorem reform_memory : (s.reform mode p).memory = s.memory := rfl

@[simp] theorem reform_cycle : (s.reform mode p).cycle = s.cycle := rfl

@[simp] theorem reform_halted : (s.reform mode p).halted = s.halted := rfl

@[simp] theorem reform_revision :
    (s.reform mode p).tickProcedure.revision = s.tickProcedure.revision := rfl

@[simp] theorem reform_procedure : (s.reform mode p).tickProcedure.procedure = p := rfl

end

/-- The second simulator differs from the first one in the mode and in the form of the tick only. -/
inductive Agrees (s : Simulator μ) : Simulator μ → Prop where
  | intro (mode : TickMode) {p : Procedure μ} (h : p.steps = s.tickProcedure.procedure.steps) :
    Agrees s (s.reform mode p)

/-- Two operations give one answer, and the simulators that they lead to agree. -/
def SameAnswer {α : Type} (r r' : α × Simulator μ) : Prop := r.1 = r'.1 ∧ r.2.Agrees r'.2

namespace SameAnswer

variable {α β : Type} {r r' : α × Simulator μ}

theorem exists_eq (h : SameAnswer r r') : ∃ a s s', r = (a, s) ∧ r' = (a, s') ∧ s.Agrees s' :=
  ⟨r.1, r.2, r'.2, rfl, congrArg (·, r'.2) h.1.symm, h.2⟩

theorem map (h : SameAnswer r r') (f : α → β) : SameAnswer (r.map f id) (r'.map f id) :=
  ⟨congrArg f h.1, h.2⟩

end SameAnswer

/-- Ticks of one schedule differ in their form only. -/
theorem generate_matches (schedule : Schedule) (block? : BlockId → Option (UpdateBlock μ))
    (revision : Nat) (mode mode' : TickMode) :
    Matches (fun t t' => t'.revision = t.revision ∧ t'.procedure.steps = t.procedure.steps)
      (Tick.generate schedule block? mode revision)
      (Tick.generate schedule block? mode' revision) := by
  unfold Tick.generate
  split
  · exact .error _
  · refine (Matches.refl _).bind fun h => ?_
    obtain rfl := h
    exact .ok ⟨rfl, (Procedure.steps_ofSteps mode' _).trans (Procedure.steps_ofSteps mode _).symm⟩

/-- Up to the schedule, the mode is not looked at. -/
theorem compile_matches (d : Design μ) (config : SimConfig) (mode mode' : TickMode) :
    Matches (fun r r' => r'.1 = r.1 ∧ r'.2.revision = r.2.revision ∧
        r'.2.procedure.steps = r.2.procedure.steps)
      (d.compile { config with mode }) (d.compile { config with mode := mode' }) := by
  have helaborate : d.elaborate { config with mode } = d.elaborate { config with mode := mode' } :=
    rfl
  unfold Design.compile
  rw [helaborate]
  refine (Matches.refl _).bind fun h => ?_
  obtain rfl := h
  refine ((generate_matches ..).mapError _).bind fun h => ?_
  exact .ok ⟨rfl, h⟩

theorem new_matches (design : Design μ) (config : SimConfig) (memory : μ) (mode mode' : TickMode) :
    Matches Agrees (new design { config with mode } memory)
      (new design { config with mode := mode' } memory) := by
  refine (compile_matches design config mode mode').bind fun {r r'} h => ?_
  obtain ⟨elaboration, revision, p⟩ := r
  obtain ⟨elaboration', revision', p'⟩ := r'
  obtain ⟨rfl, rfl, hsteps⟩ := h
  exact .ok (.intro mode' hsteps)

namespace Agrees

variable {s s' : Simulator μ} (h : s.Agrees s')

include h

/-! ### Operations -/

theorem poke (a : SignalId) (value : UInt64) : SameAnswer (s.poke a value) (s'.poke a value) := by
  obtain ⟨mode, hp⟩ := h
  simp only [Simulator.poke, reform_store]
  split
  · exact ⟨rfl, .intro mode hp⟩
  · exact ⟨rfl, .intro mode hp⟩

theorem call (cycle : Nat) (m : Machine μ SignalStore) :
    s'.tickProcedure.call cycle m = s.tickProcedure.call cycle m := by
  obtain ⟨mode, hp⟩ := h
  simp only [Tick.call, Procedure.run_eq, reform_procedure, hp]

theorem order : s'.tickProcedure.order = s.tickProcedure.order := by
  obtain ⟨mode, hp⟩ := h
  exact congrArg (List.map Step.block) hp

theorem tick : SameAnswer s.tick s'.tick := by
  have hcall := h.call s.cycle ⟨s.memory, s.store⟩
  have hsize : s'.tickProcedure.size = s.tickProcedure.size := congrArg List.length h.order
  obtain ⟨mode, hp⟩ := h
  simp only [Simulator.tick, reform_halted, reform_revision, reform_design, reform_cycle,
    reform_memory, reform_store, hcall, hsize]
  split
  · exact ⟨rfl, .intro mode hp⟩
  · split
    · exact ⟨rfl, .intro mode hp⟩
    · split
      · exact ⟨rfl, .intro mode hp⟩
      · exact ⟨rfl, .intro mode hp⟩

theorem tickLog : s'.tickLog = s.tickLog := by
  obtain ⟨mode, hp⟩ := h
  simp only [Simulator.tickLog, Procedure.log_eq, reform_halted, reform_revision, reform_design,
    reform_cycle, reform_memory, reform_store, reform_procedure, hp]

omit h in
/-- Cycles of simulators that agree, up to the first failure. -/
theorem ticks (n : Nat) {s s' : Simulator μ} (h : s.Agrees s') :
    SameAnswer (Simulator.ticks n s) (Simulator.ticks n s') ∧ ticksLog n s' = ticksLog n s := by
  induction n generalizing s s' with
  | zero => exact ⟨⟨rfl, h⟩, rfl⟩
  | succ n ih =>
    have hlog := h.tickLog
    obtain ⟨outcome, s₁, s₁', htick, htick', hnext⟩ := h.tick.exists_eq
    simp only [Simulator.ticks, ticksLog, hlog, htick, htick']
    cases outcome with
    | error e => exact ⟨⟨rfl, hnext⟩, rfl⟩
    | ok u =>
      obtain ⟨hticks, hlogs⟩ := ih hnext
      exact ⟨hticks, congrArg _ hlogs⟩

theorem maxCycles : s'.config.maxCycles = s.config.maxCycles := by
  obtain ⟨mode, hp⟩ := h
  rfl

theorem run (cycles : Nat) : SameAnswer (s.run cycles) (s'.run cycles) := by
  have hticks := (Agrees.ticks (min cycles s.config.maxCycles) h).1
  obtain ⟨outcome, s₁, s₁', hs, hs', hnext⟩ := hticks.exists_eq
  simp only [Simulator.run, h.maxCycles, hs, hs']
  cases outcome with
  | error e => exact ⟨rfl, hnext⟩
  | ok u => exact ⟨rfl, hnext⟩

theorem reset : s.reset.Agrees s'.reset := by
  obtain ⟨mode, hp⟩ := h
  exact .intro mode hp

theorem edit (e : Edit μ) : SameAnswer (s.edit e) (s'.edit e) := by
  obtain ⟨mode, hp⟩ := h
  simp only [Simulator.edit, reform_design]
  split
  · exact ⟨rfl, .intro mode hp⟩
  · exact ⟨rfl, .intro mode hp⟩

theorem withDesign (design : Design μ) :
    ({ s with design } : Simulator μ).Agrees { s' with design } := by
  obtain ⟨mode, hp⟩ := h
  exact .intro mode hp

theorem compile : Matches (fun r r' => r'.1 = r.1 ∧ r'.2.revision = r.2.revision ∧
      r'.2.procedure.steps = r.2.procedure.steps)
    (s.design.compile s.config) (s'.design.compile s'.config) := by
  obtain ⟨mode, hp⟩ := h
  exact compile_matches s.design s.config s.config.mode mode

theorem reelaborate : SameAnswer s.reelaborate s'.reelaborate := by
  have hcompile := h.compile
  obtain ⟨mode, hp⟩ := h
  unfold Simulator.reelaborate
  generalize s.design.compile s.config = r at hcompile ⊢
  generalize (s.reform mode _).design.compile (s.reform mode _).config = r' at hcompile ⊢
  cases hcompile with
  | error e => exact ⟨rfl, .intro mode hp⟩
  | @ok r r' h =>
    obtain ⟨elaboration, revision, p⟩ := r
    obtain ⟨elaboration', revision', p'⟩ := r'
    obtain ⟨rfl, rfl, hsteps⟩ := h
    exact ⟨rfl, .intro mode hsteps⟩

theorem restructure (edits : List (Edit μ)) :
    SameAnswer (s.restructure edits) (s'.restructure edits) := by
  have hdesign : s'.design = s.design := by
    obtain ⟨mode, hp⟩ := h
    rfl
  have hedited := h.withDesign (s.design.applyAll edits).design
  obtain ⟨houtcome, hnext⟩ := hedited.reelaborate
  simp only [Simulator.restructure, hdesign]
  split
  · exact ⟨rfl, hedited⟩
  · exact ⟨congrArg (·, _) houtcome, hnext⟩

/-- Every operation gives one answer, runs the same blocks and keeps the agreement. -/
theorem perform (c : Command μ) :
    SameAnswer (s.perform c) (s'.perform c) ∧ s'.commandLog c = s.commandLog c := by
  cases c with
  | poke a value => exact ⟨(h.poke a value).map _, rfl⟩
  | tick => exact ⟨h.tick.map _, h.tickLog⟩
  | run cycles =>
    refine ⟨(h.run cycles).map _, ?_⟩
    simp only [commandLog, h.maxCycles]
    exact (Agrees.ticks _ h).2
  | reset => exact ⟨⟨rfl, h.reset⟩, rfl⟩
  | reelaborate => exact ⟨h.reelaborate.map _, rfl⟩
  | restructure edits => exact ⟨(h.restructure edits).map _, rfl⟩
  | edit e => exact ⟨(h.edit e).map _, rfl⟩

omit h in
theorem performAll {s s' : Simulator μ} (h : s.Agrees s') (commands : List (Command μ)) :
    SameAnswer (s.performAll commands) (s'.performAll commands) ∧
      s'.historyLog commands = s.historyLog commands := by
  induction commands generalizing s s' with
  | nil => exact ⟨⟨rfl, h⟩, rfl⟩
  | cons c rest ih =>
    obtain ⟨⟨houtcome, hnext⟩, hlog⟩ := h.perform c
    obtain ⟨⟨houtcomes, hlast⟩, hlogs⟩ := ih hnext
    refine ⟨⟨?_, hlast⟩, ?_⟩
    · exact congrArg₂ List.cons houtcome houtcomes
    · exact congrArg₂ List.append hlog hlogs

end Agrees

/-- What shows of two simulators is the same. -/
structure SameState (s s' : Simulator μ) : Prop where
  values : ∀ a, s'.peek a = s.peek a
  cycle : s'.cycle = s.cycle
  halted : s'.halted = s.halted
  /-- The blocks that a tick runs. -/
  order : s'.tickProcedure.order = s.tickProcedure.order
  /-- What the behaviors keep. -/
  memory : s'.memory = s.memory

theorem Agrees.sameState {s s' : Simulator μ} (h : s.Agrees s') : SameState s s' := by
  have horder := h.order
  obtain ⟨mode, hp⟩ := h
  exact ⟨fun _ => rfl, rfl, rfl, horder, rfl⟩

/-- What two simulators make of the same operations: the same outcomes, the same reads and writes of
the same blocks, and the same state in the end. -/
structure SameRun (s s' : Simulator μ) (commands : List (Command μ)) : Prop where
  outcomes : (s'.performAll commands).1 = (s.performAll commands).1
  log : s'.historyLog commands = s.historyLog commands
  state : SameState (s.performAll commands).2 (s'.performAll commands).2

/-- **Both forms of a tick act alike.**  Under settings that differ in the mode only, a design is
refused with the same error or gives two simulators that no list of operations tells apart. -/
theorem modes_agree (design : Design μ) (config : SimConfig) (memory : μ)
    (mode mode' : TickMode) :
    Matches (fun s s' => ∀ commands, SameRun s s' commands)
      (new design { config with mode } memory)
      (new design { config with mode := mode' } memory) := by
  refine (new_matches design config memory mode mode').mono fun h commands => ?_
  obtain ⟨⟨houtcomes, hlast⟩, hlog⟩ := h.performAll commands
  exact ⟨houtcomes.symm, hlog, hlast.sameState⟩

end Simulator

end Cyclewise
