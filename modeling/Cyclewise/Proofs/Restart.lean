import Cyclewise.Proofs.Block.Confined
import Cyclewise.Proofs.Hierarchy.Calls
import Cyclewise.Proofs.Staleness

/-!
# A reset is a fresh start

Without a change of the design that is still to be elaborated, the elaboration of a simulator is the
one that its present design gives, and a reset takes its store back to the values of a new one.  So
a reset simulator is a new one, up to what behaviors keep between calls (`new_of_reset`).

Behaviors that are `Forgetful` keep nothing of importance.  Two simulators that run such behaviors
and differ in what these keep (`Parallel`) give the same answers to all operations, as long as these
bring in no other behaviors (`Parallel.performAll`).  So nothing tells a reset simulator from a new
one (`reset_fresh`).
-/

namespace Cyclewise

variable {μ : Type}

namespace Behavior

/-- Whatever the block, the memory has no part in what a behavior does. -/
def Forgetful (f : Behavior μ) : Prop := ∀ b, f.Memoryless b

end Behavior

namespace Edit

/-- The block that an edit brings in. -/
def newBlock? : Edit μ → Option (UpdateBlock μ)
  | registerBlock _ block => some block
  | _ => none

/-- An edit brings in no behavior that remembers its calls. -/
def Forgetful (e : Edit μ) : Prop := ∀ block, e.newBlock? = some block → block.behavior.Forgetful

end Edit

/-! ## Live behaviors -/

namespace Hierarchy

variable {h h' : Hierarchy μ}

theorem block?_congr (he : ∀ b, h'.entry? b = h.entry? b) (b : BlockId) :
    h'.block? b = h.block? b := by
  unfold block?
  rw [he]

theorem block?_of_registerBlock {owner : ComponentId} {new block : UpdateBlock μ} {c b : BlockId}
    (he : h.registerBlock owner new = .ok (c, h')) (hb : h'.block? b = some block) :
    new = block ∨ h.block? b = some block := by
  unfold block? at hb ⊢
  rw [entry?_registerBlock he] at hb
  split at hb
  · exact .inl (Option.some.inj hb)
  · exact .inr hb

theorem block?_of_removeComponent (hh : h.Built) {c : ComponentId}
    (he : h.removeComponent c = .ok h') {b : BlockId} {block : UpdateBlock μ}
    (hb : h'.block? b = some block) : h.block? b = some block := by
  unfold block? at hb ⊢
  rw [entry?_removeComponent he rfl hh.invariant.blocks] at hb
  obtain ⟨e, hentry, rfl⟩ := Option.map_eq_some_iff.1 hb
  rw [(Option.filter_eq_some_iff.1 hentry).1]
  rfl

end Hierarchy

namespace Design

variable {d d' : Design μ}

/-- No live block has a behavior that remembers its calls. -/
def Forgetful (d : Design μ) : Prop :=
  ∀ b block, d.hierarchy.block? b = some block → block.behavior.Forgetful

/-- A block that lives after an edit lived before, or the edit brings it in. -/
theorem exists_block_of_apply (hd : d.Built) {edit : Edit μ} {result : EditResult}
    (he : d.apply edit = .ok (result, d')) {b : BlockId} {block : UpdateBlock μ}
    (hb : d'.hierarchy.block? b = some block) :
    edit.newBlock? = some block ∨ ∃ b', d.hierarchy.block? b' = some block := by
  cases edit with
  | addComponent parent name =>
    obtain ⟨c, k, hk, rfl⟩ := withComponent_eq_ok he
    rw [Hierarchy.block?_congr (Hierarchy.entry?_addComponent hk)] at hb
    exact .inr ⟨b, hb⟩
  | removeComponent c =>
    obtain ⟨k, hk, rfl⟩ := withHierarchy_eq_ok he
    exact .inr ⟨b, Hierarchy.block?_of_removeComponent hd.hierarchy hk hb⟩
  | removeComponentNamed parent name =>
    obtain ⟨k, hk, rfl⟩ := withHierarchy_eq_ok he
    unfold Hierarchy.removeComponentNamed at hk
    split at hk
    · exact .inr ⟨b, Hierarchy.block?_of_removeComponent hd.hierarchy hk hb⟩
    · cases hk
  | registerBlock owner new =>
    obtain ⟨c, k, hk, rfl⟩ := withBlock_eq_ok he
    rcases Hierarchy.block?_of_registerBlock hk hb with rfl | hold
    · exact .inl rfl
    · exact .inr ⟨b, hold⟩
  | registerCopy owner b' =>
    unfold apply at he
    simp only at he
    split at he
    · next e hentry =>
      obtain ⟨c, k, hk, rfl⟩ := withBlock_eq_ok he
      rcases Hierarchy.block?_of_registerBlock hk hb with rfl | hold
      · refine .inr ⟨b', ?_⟩
        unfold Hierarchy.block?
        rw [Hierarchy.entry_eq_ok hentry, Option.map_some]
      · exact .inr ⟨b, hold⟩
    · cases he
  | addConstraint owner before after =>
    obtain ⟨k, hk, rfl⟩ := withHierarchy_eq_ok he
    rw [Hierarchy.block?_congr (Hierarchy.entry?_addConstraints hk)] at hb
    exact .inr ⟨b, hb⟩
  | addConstraints owner constraints =>
    obtain ⟨k, hk, rfl⟩ := withHierarchy_eq_ok he
    rw [Hierarchy.block?_congr (Hierarchy.entry?_addConstraints hk)] at hb
    exact .inr ⟨b, hb⟩
  | declare path kind typeName owner =>
    obtain ⟨s, t, ht, rfl⟩ := withSignal_eq_ok he
    exact .inr ⟨b, hb⟩
  | declareChild parent suffix typeName =>
    obtain ⟨s, t, ht, rfl⟩ := withSignal_eq_ok he
    exact .inr ⟨b, hb⟩
  | connect a a' =>
    obtain ⟨-, rfl⟩ := Prod.mk.inj (Except.ok.inj he)
    exact .inr ⟨b, hb⟩

theorem Forgetful.apply (hf : d.Forgetful) (hd : d.Built) {edit : Edit μ} (hedit : edit.Forgetful)
    {result : EditResult} (he : d.apply edit = .ok (result, d')) : d'.Forgetful := by
  intro b block hb
  rcases exists_block_of_apply hd he hb with hnew | ⟨b', hold⟩
  · exact hedit block hnew
  · exact hf b' block hold

theorem Forgetful.applyAll (hf : d.Forgetful) (hd : d.Built) {edits : List (Edit μ)}
    (hedits : ∀ e ∈ edits, e.Forgetful) : (d.applyAll edits).design.Forgetful := by
  induction edits generalizing d with
  | nil => exact hf
  | cons e rest ih =>
    rw [List.forall_mem_cons] at hedits
    unfold Design.applyAll
    split
    · exact hf
    · next he => exact ih (hf.apply hd hedits.1 he) (hd.apply he) hedits.2

end Design

/-! ## Cycles -/

namespace Step

/-- What a memoryless step does to the signals is the same with any memory. -/
theorem run_memory {step : Step μ} (hs : step.behavior.Memoryless step.block) (cycle : Nat)
    (m : Machine μ SignalStore) (memory : μ) :
    ∃ memory', step.run cycle ⟨memory, m.signals⟩ =
      ((step.run cycle m).1, ⟨memory', (step.run cycle m).2.signals⟩) := by
  have hsame := hs cycle m.memory memory m.signals
  unfold run
  generalize (step.behavior step.block cycle m.memory).run m.signals = r at hsame ⊢
  generalize (step.behavior step.block cycle memory).run m.signals = r' at hsame ⊢
  obtain ⟨⟨outcome, kept⟩, signals⟩ := r
  obtain ⟨⟨outcome', kept'⟩, signals'⟩ := r'
  obtain ⟨rfl, rfl⟩ := hsame
  cases outcome' with
  | error e => exact ⟨kept', rfl⟩
  | ok u => exact ⟨kept', rfl⟩

theorem runAll_memory {steps : List (Step μ)}
    (hs : ∀ step ∈ steps, step.behavior.Memoryless step.block) (cycle : Nat)
    (m : Machine μ SignalStore) (memory : μ) :
    ∃ memory', runAll cycle steps ⟨memory, m.signals⟩ =
      ((runAll cycle steps m).1, ⟨memory', (runAll cycle steps m).2.signals⟩) := by
  induction steps generalizing m memory with
  | nil => exact ⟨memory, rfl⟩
  | cons step rest ih =>
    rw [List.forall_mem_cons] at hs
    obtain ⟨memory', hrun⟩ := run_memory hs.1 cycle m memory
    rw [runAll, runAll, hrun]
    rcases step.run cycle m with ⟨_ | u, m'⟩
    · exact ⟨memory', rfl⟩
    · exact ih hs.2 m' memory'

end Step

/-! ## Simulators that differ in what behaviors keep -/

namespace Command

/-- An operation brings in no behavior that remembers its calls. -/
def Forgetful (c : Command μ) : Prop := ∀ e ∈ c.edits, e.Forgetful

end Command

namespace Simulator

/-- Neither the live blocks nor those that a tick runs have behaviors that remember their calls. -/
structure Forgetful (s : Simulator μ) : Prop where
  built : s.design.Built
  blocks : s.design.Forgetful
  steps : ∀ step ∈ s.tickProcedure.procedure.steps, step.behavior.Memoryless step.block

/-- The second simulator differs from the first one in what forgetful behaviors keep only. -/
inductive Parallel (s : Simulator μ) : Simulator μ → Prop where
  | intro (memory : μ) (hs : s.Forgetful) : Parallel s { s with memory }

/-- Two operations give one answer, and leave simulators that differ in what behaviors keep only. -/
def Echoes {α : Type} (r r' : α × Simulator μ) : Prop := r.1 = r'.1 ∧ r.2.Parallel r'.2

namespace Echoes

variable {α β : Type} {r r' : α × Simulator μ}

theorem exists_eq (h : Echoes r r') : ∃ a s s', r = (a, s) ∧ r' = (a, s') ∧ s.Parallel s' :=
  ⟨r.1, r.2, r'.2, rfl, congrArg (·, r'.2) h.1.symm, h.2⟩

theorem map (h : Echoes r r') (f : α → β) : Echoes (r.map f id) (r'.map f id) :=
  ⟨congrArg f h.1, h.2⟩

end Echoes

variable {s s' : Simulator μ}

/-- A tick runs behaviors of live blocks. -/
theorem memoryless_of_compile {d : Design μ} {config : SimConfig} {e : Elaboration} {t : Tick μ}
    (h : d.compile config = .ok (e, t)) (hd : d.Forgetful) :
    ∀ step ∈ t.procedure.steps, step.behavior.Memoryless step.block := by
  intro step hstep
  obtain ⟨-, hgenerate⟩ := Design.compile_eq_ok h
  obtain ⟨-, hsteps, -⟩ := Tick.generate_eq_ok hgenerate
  rw [hsteps] at hstep
  obtain ⟨-, block, hblock, heq⟩ := Tick.mem_stepsOf.1 hstep
  rw [congrArg Step.behavior heq]
  exact hd _ block hblock _

namespace Parallel

theorem forgetful (h : s.Parallel s') : s.Forgetful := by
  obtain ⟨memory, hs⟩ := h
  exact hs

theorem poke (h : s.Parallel s') (a : SignalId) (value : UInt64) :
    Echoes (s.poke a value) (s'.poke a value) := by
  obtain ⟨memory, hs⟩ := h
  simp only [Simulator.poke]
  split
  · exact ⟨rfl, .intro memory ⟨hs.built, hs.blocks, hs.steps⟩⟩
  · exact ⟨rfl, .intro memory hs⟩

theorem tick (h : s.Parallel s') : Echoes s.tick s'.tick := by
  obtain ⟨memory, hs⟩ := h
  obtain ⟨memory', hcall⟩ := Step.runAll_memory hs.steps s.cycle ⟨s.memory, s.store⟩ memory
  simp only [Simulator.tick, Tick.call, Procedure.run_eq, hcall]
  split
  · exact ⟨rfl, .intro memory hs⟩
  · split
    · exact ⟨rfl, .intro memory hs⟩
    · -- the outcome of the call decides what becomes of the cycle
      rcases Step.runAll s.cycle s.tickProcedure.procedure.steps
        (⟨s.memory, s.store⟩ : Machine μ SignalStore) with ⟨_ | u, m⟩
      · exact ⟨rfl, .intro memory' ⟨hs.built, hs.blocks, hs.steps⟩⟩
      · exact ⟨rfl, .intro memory' ⟨hs.built, hs.blocks, hs.steps⟩⟩

theorem ticks (h : s.Parallel s') (n : Nat) :
    Echoes (Simulator.ticks n s) (Simulator.ticks n s') := by
  induction n generalizing s s' with
  | zero => exact ⟨rfl, h⟩
  | succ n ih =>
    obtain ⟨outcome, t, t', htick, htick', hnext⟩ := h.tick.exists_eq
    simp only [Simulator.ticks, htick, htick']
    cases outcome with
    | error e => exact ⟨rfl, hnext⟩
    | ok u => exact ih hnext

theorem run (h : s.Parallel s') (cycles : Nat) : Echoes (s.run cycles) (s'.run cycles) := by
  have hconfig : s'.config = s.config := by
    obtain ⟨memory, hs⟩ := h
    rfl
  obtain ⟨outcome, t, t', hticks, hticks', hnext⟩ :=
    (h.ticks (min cycles s.config.maxCycles)).exists_eq
  simp only [Simulator.run, hconfig, hticks, hticks']
  cases outcome with
  | error e => exact ⟨rfl, hnext⟩
  | ok u => exact ⟨rfl, hnext⟩

theorem reset (h : s.Parallel s') : s.reset.Parallel s'.reset := by
  obtain ⟨memory, hs⟩ := h
  exact .intro memory ⟨hs.built, hs.blocks, hs.steps⟩

theorem reelaborate (h : s.Parallel s') : Echoes s.reelaborate s'.reelaborate := by
  obtain ⟨memory, hs⟩ := h
  simp only [Simulator.reelaborate]
  split
  · exact ⟨rfl, .intro memory hs⟩
  · next hcompile =>
    exact ⟨rfl,
      .intro memory ⟨hs.built, hs.blocks, memoryless_of_compile hcompile hs.blocks⟩⟩

theorem edit (h : s.Parallel s') {e : Edit μ} (he : e.Forgetful) :
    Echoes (s.edit e) (s'.edit e) := by
  obtain ⟨memory, hs⟩ := h
  simp only [Simulator.edit]
  split
  · next hedit =>
    exact ⟨rfl, .intro memory
      ⟨hs.built.apply hedit, hs.blocks.apply hs.built he hedit, hs.steps⟩⟩
  · exact ⟨rfl, .intro memory hs⟩

theorem restructure (h : s.Parallel s') {edits : List (Edit μ)}
    (hedits : ∀ e ∈ edits, e.Forgetful) :
    Echoes (s.restructure edits) (s'.restructure edits) := by
  obtain ⟨memory, hs⟩ := h
  have hedited : ({ s with design := (s.design.applyAll edits).design } : Simulator μ).Parallel
      { s with memory, design := (s.design.applyAll edits).design } :=
    .intro memory ⟨hs.built.applyAll edits, hs.blocks.applyAll hs.built hedits, hs.steps⟩
  obtain ⟨houtcome, hnext⟩ := hedited.reelaborate
  simp only [Simulator.restructure]
  split
  · exact ⟨rfl, hedited⟩
  · exact ⟨congrArg (·, _) houtcome, hnext⟩

/-- Every operation gives one answer. -/
theorem perform (h : s.Parallel s') {c : Command μ} (hc : c.Forgetful) :
    Echoes (s.perform c) (s'.perform c) := by
  cases c with
  | poke a value => exact (h.poke a value).map _
  | tick => exact h.tick.map _
  | run cycles => exact (h.run cycles).map _
  | reset => exact ⟨rfl, h.reset⟩
  | reelaborate => exact h.reelaborate.map _
  | restructure edits => exact (h.restructure hc).map _
  | edit e => exact (h.edit (hc e List.mem_cons_self)).map _

theorem performAll (h : s.Parallel s') {commands : List (Command μ)}
    (hc : ∀ c ∈ commands, c.Forgetful) :
    Echoes (s.performAll commands) (s'.performAll commands) := by
  induction commands generalizing s s' with
  | nil => exact ⟨rfl, h⟩
  | cons c rest ih =>
    rw [List.forall_mem_cons] at hc
    obtain ⟨houtcome, hnext⟩ := h.perform hc.1
    obtain ⟨houtcomes, hlast⟩ := ih hnext hc.2
    exact ⟨congrArg₂ List.cons houtcome houtcomes, hlast⟩

end Parallel

/-! ## New simulators -/

/-- What shows of two simulators is the same. -/
structure SameLook (s s' : Simulator μ) : Prop where
  /-- The blocks that a tick runs. -/
  order : s'.tickProcedure.order = s.tickProcedure.order
  mode : s'.tickProcedure.mode = s.tickProcedure.mode
  peek : ∀ a, s'.peek a = s.peek a
  peekPath : ∀ path, s'.peekPath path = s.peekPath path
  cycle : s'.cycle = s.cycle
  halted : s'.halted = s.halted
  lastTick : s'.lastTick = s.lastTick
  design : s'.design = s.design
  config : s'.config = s.config
  elaboration : s'.elaboration = s.elaboration

theorem sameLook_memory (s : Simulator μ) (memory : μ) : s.SameLook { s with memory } :=
  ⟨rfl, rfl, fun _ => rfl, fun _ => rfl, rfl, rfl, rfl, rfl, rfl, rfl⟩

theorem Parallel.sameLook (h : s.Parallel s') : s.SameLook s' := by
  obtain ⟨memory, -⟩ := h
  exact s.sameLook_memory memory

/-- Whether a change is pending can be told of every simulator that operations lead to. -/
theorem Reachable.exists_traced (hs : s.Reachable) : ∃ pending, Traced s pending := by
  induction hs with
  | new hd h => exact ⟨false, .new hd h⟩
  | perform _ c ih =>
    obtain ⟨pending, hs⟩ := ih
    exact ⟨_, hs.perform c⟩
  | aggregate _ ih =>
    obtain ⟨pending, hs⟩ := ih
    exact ⟨pending, hs.aggregate⟩

/-- A tick that is not stale is the one that the present design compiles to. -/
theorem Reachable.compile_eq (hs : s.Reachable)
    (hcurrent : s.tickProcedure.revision = s.design.revision) :
    s.design.compile s.config = .ok (s.elaboration, s.tickProcedure) := by
  obtain ⟨pending, htraced⟩ := hs.exists_traced
  have htracked := htraced.tracked
  cases pending with
  | false => exact htracked.fresh rfl
  | true =>
    have hlt := htracked.stale rfl
    omega

/-- Up to what behaviors keep, a reset makes a new simulator of one that is not stale. -/
theorem new_of_reset (hs : s.Reachable)
    (hcurrent : s.tickProcedure.revision = s.design.revision) (memory : μ) :
    Simulator.new s.design s.config memory = .ok { s.reset with memory } := by
  simp only [Simulator.new, hs.compile_eq hcurrent, reset, hs.coherent.store]
  rfl

/-- **Reset.**  Take a simulator that is not stale, whatever was done with it.  After a reset it
looks like a new simulator of the present design and settings, and it is one, if that starts with
what behaviors have kept.  If behaviors keep nothing of importance, all later operations that bring
in such behaviors only give the same answers on both, and the two look alike ever after. -/
theorem reset_fresh (hs : s.Reachable)
    (hcurrent : s.tickProcedure.revision = s.design.revision) :
    Simulator.new s.design s.config s.memory = .ok s.reset ∧
    ∀ memory, ∃ fresh, Simulator.new s.design s.config memory = .ok fresh ∧
      s.reset.SameLook fresh ∧
      (s.design.Forgetful → ∀ commands : List (Command μ), (∀ c ∈ commands, c.Forgetful) →
        (fresh.performAll commands).1 = (s.reset.performAll commands).1 ∧
          (s.reset.performAll commands).2.SameLook (fresh.performAll commands).2) := by
  refine ⟨new_of_reset hs hcurrent s.memory, fun memory => ?_⟩
  refine ⟨_, new_of_reset hs hcurrent memory, s.reset.sameLook_memory memory, ?_⟩
  intro hforgetful commands hcommands
  have hreset : s.reset.Forgetful :=
    ⟨hs.coherent.built, hforgetful, memoryless_of_compile (hs.compile_eq hcurrent) hforgetful⟩
  obtain ⟨houtcomes, hlast⟩ := (Parallel.intro memory hreset).performAll hcommands
  exact ⟨houtcomes.symm, hlast.sameLook⟩

/-- A block that counts and gives up in cycle 2, after it has counted once more. -/
def timer : UpdateBlock Nat where
  name := "timer"
  body := [.set ⟨0⟩ (.binary .add (.read ⟨0⟩) (.const 1)) (.ofLine 1)]
  behavior := Act.behavior [.sum ⟨0⟩ [⟨0⟩] 1 1, .failAt 2 "time is up"]

def timed : Design Nat :=
  Design.ofEdits "top"
    [.declare "count" .wire "Bits8" Hierarchy.top, .registerBlock Hierarchy.top timer]

theorem forgetful_timed : timed.Forgetful := by
  intro b block hb
  have hblocks : timed.hierarchy.blocks.map BlockEntry.block = #[timer] := by cbv
  have hmem := Hierarchy.mem_of_block? hb
  rw [hblocks] at hmem
  obtain rfl : block = timer := by simpa using hmem
  exact Behavior.memoryless_ofRoutine _

/-- The count starts at 7 and is at 10 when the block gives up in cycle 2.  After a reset it starts
at 0, the block gives up in cycle 2 again, and a new simulator with another memory does just that. -/
theorem timed_reset : ∃ s fresh : Simulator Nat,
    ((Simulator.new timed {} 4).map fun s => (s.performAll [.poke ⟨0⟩ 7, .run 5]).2) = .ok s ∧
    s.halted = true ∧ s.cycle = 2 ∧ s.peek ⟨0⟩ = some 10 ∧
    Simulator.new s.design s.config 9 = .ok fresh ∧ s.reset.SameLook fresh ∧
    fresh.peek ⟨0⟩ = some 0 ∧
    (fresh.performAll [.run 2, .run 1]).1 = (s.reset.performAll [.run 2, .run 1]).1 := by
  have hcheck : ((Simulator.new timed {} 4).toOption.any fun s₀ =>
      let s := (s₀.performAll [.poke ⟨0⟩ 7, .run 5]).2
      s.halted && decide (s.cycle = 2) && decide (s.peek ⟨0⟩ = some 10) &&
        decide (s.reset.peek ⟨0⟩ = some 0) &&
        decide (s.tickProcedure.revision = s.design.revision)) = true := by
    decide +kernel
  obtain ⟨s₀, hnew, hcheck⟩ := Design.exists_ok_of_any hcheck
  simp only [Bool.and_eq_true, decide_eq_true_eq] at hcheck
  obtain ⟨⟨⟨⟨hhalted, hcycle⟩, hpeek⟩, hinitial⟩, hcurrent⟩ := hcheck
  have hs : (s₀.performAll [.poke ⟨0⟩ 7, .run 5]).2.Reachable :=
    ((Reachable.new (Design.built_ofEdits _ _) hnew).perform (.poke ⟨0⟩ 7)).perform (.run 5)
  have hidle : ∀ c ∈ ([.poke ⟨0⟩ 7, .run 5] : List (Command Nat)), c.Forgetful := by
    simp [Command.Forgetful, Command.edits]
  have hlater : ∀ c ∈ ([.run 2, .run 1] : List (Command Nat)), c.Forgetful := by
    simp [Command.Forgetful, Command.edits]
  have hstart : s₀.Forgetful := by
    obtain ⟨elaboration, tickProcedure, hcompile, rfl⟩ := new_eq_ok hnew
    exact ⟨Design.built_ofEdits _ _, forgetful_timed,
      memoryless_of_compile hcompile forgetful_timed⟩
  have hforgetful := ((Parallel.intro 4 hstart).performAll hidle).2.forgetful.blocks
  obtain ⟨-, hnews⟩ := reset_fresh hs hcurrent
  obtain ⟨fresh, hfresh, hlook, hsame⟩ := hnews 9
  refine ⟨_, fresh, ?_, hhalted, hcycle, hpeek, hfresh, hlook,
    (hlook.peek ⟨0⟩).trans hinitial, (hsame hforgetful _ hlater).1⟩
  rw [hnew]
  rfl

end Simulator

end Cyclewise
