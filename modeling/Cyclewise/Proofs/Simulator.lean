import Cyclewise.History
import Cyclewise.Proofs.Elaboration
import Cyclewise.Proofs.Tick

/-!
# Reachable simulators

Whatever is done to a simulator, it changes in three ways (`Moves`): its values are updated, an edit
of its design is made, or the design is elaborated.  Next to the simulator goes a mark: whether its
design was changed since it was last elaborated.  The moves of an operation are those of its parts,
and its outcome tells what becomes of the mark (`perform_moves`).

`Simulator.Reachable` collects the states that operations lead to.  In each of them the elaboration
and the tick come from one design that edits lead to, and the store differs from a fresh one in
values that can be written only (`Coherent`).
-/

namespace Cyclewise

/-! ## What an outcome tells -/

namespace Outcome

/-- Whether the design was elaborated. -/
def elaborates : Outcome → Bool
  | elaborated result | restructured result _ => result.isOk
  | _ => false

/-- The number of edits made. -/
def editsMade : Outcome → Nat
  | edited result => if result.isOk then 1 else 0
  | restructured _ results => results.length
  | _ => 0

end Outcome

namespace Command

variable {μ : Type}

/-- The edits that an operation is to make, in order, up to the first that is refused. -/
def edits : Command μ → List (Edit μ)
  | restructure edits => edits
  | edit e => [e]
  | _ => []

/-- The edits that an operation has made. -/
def made (c : Command μ) (outcome : Outcome) : List (Edit μ) := c.edits.take outcome.editsMade

/-- Whether the design is changed after an operation and was not elaborated since. -/
def pendingAfter (c : Command μ) (outcome : Outcome) (pending : Bool) : Bool :=
  !outcome.elaborates && (pending || (c.made outcome).any fun e => !e.isIdle)

/-- Other operations than edits and elaborations leave the mark as it is. -/
theorem pendingAfter_eq {c : Command μ} {outcome : Outcome} (he : outcome.elaborates = false)
    (hm : c.made outcome = []) (pending : Bool) : c.pendingAfter outcome pending = pending := by
  unfold pendingAfter
  rw [he, hm, List.any_nil, Bool.or_false, Bool.not_false, Bool.true_and]

theorem pendingAfter_edit (e : Edit μ) (result : Except EditError EditResult) (pending : Bool) :
    (Command.edit e).pendingAfter (.edited result) pending =
      (pending || (result.isOk && !e.isIdle)) := by
  cases result with
  | error refusal =>
    show (!false && (pending || ([] : List (Edit μ)).any _)) = (pending || (false && _))
    simp
  | ok made =>
    show (!false && (pending || [e].any _)) = (pending || (true && _))
    simp

end Command

namespace Simulator

variable {μ : Type}

/-! ## Moves -/

/-- The changes of a simulator, with the mark whether its design was changed since it was last
elaborated. -/
inductive Moves : Simulator μ × Bool → Simulator μ × Bool → Prop where
  /-- Signals, and what behaviors keep, get new values; the cycle may be completed, fail or start
  anew. -/
  | values {s pending store} (h : s.store.Updates store) (memory cycle halted lastTick) :
    Moves (s, pending) ({ s with store, memory, cycle, halted, lastTick }, pending)
  | edit {s pending e result design} (h : s.design.apply e = .ok (result, design)) :
    Moves (s, pending) ({ s with design }, pending || !e.isIdle)
  | elaborate {s pending elaboration tickProcedure}
    (h : s.design.compile s.config = .ok (elaboration, tickProcedure)) :
    Moves (s, pending)
      ({ s with
          elaboration
          tickProcedure
          store := (SignalStore.ofNets elaboration.nets).carry s.store
          halted := false }, false)

theorem poke_moves (s : Simulator μ) (pending : Bool) (a : SignalId) (value : UInt64) :
    Relation.ReflTransGen Moves (s, pending) ((s.poke a value).2, pending) := by
  unfold poke
  split
  · next store hwrite => exact .single (.values (SignalStore.updates_write hwrite) ..)
  · exact .refl

/-- A call of the tick, whether it fails or not, writes to the store. -/
theorem call_updates (t : Tick μ) (cycle : Nat) (m : Machine μ SignalStore) :
    m.signals.Updates (t.call cycle m).2.signals := by
  unfold Tick.call
  rw [Procedure.run_eq]
  exact Step.runAll_updates ..

theorem tick_moves (s : Simulator μ) (pending : Bool) :
    Relation.ReflTransGen Moves (s, pending) (s.tick.2, pending) := by
  have hcall := call_updates s.tickProcedure s.cycle ⟨s.memory, s.store⟩
  unfold tick
  split
  · exact .refl
  · split
    · exact .refl
    · split
      · next m h =>
        rw [h] at hcall
        exact .single (.values hcall ..)
      · next e m h =>
        rw [h] at hcall
        exact .single (.values hcall ..)

theorem ticks_moves (n : Nat) (s : Simulator μ) (pending : Bool) :
    Relation.ReflTransGen Moves (s, pending) ((ticks n s).2, pending) := by
  induction n generalizing s with
  | zero => exact .refl
  | succ n ih =>
    have htick := tick_moves s pending
    unfold ticks
    split
    · next s' h =>
      rw [h] at htick
      exact htick.trans (ih s')
    · next e s' h =>
      rw [h] at htick
      exact htick

theorem run_moves (s : Simulator μ) (pending : Bool) (cycles : Nat) :
    Relation.ReflTransGen Moves (s, pending) ((s.run cycles).2, pending) := by
  have hticks := ticks_moves (min cycles s.config.maxCycles) s pending
  unfold run
  simp only
  split
  · next s' h =>
    rw [h] at hticks
    exact hticks
  · next e s' h =>
    rw [h] at hticks
    exact hticks

theorem reset_moves (s : Simulator μ) (pending : Bool) :
    Relation.ReflTransGen Moves (s, pending) (s.reset, pending) :=
  .single (.values (SignalStore.updates_reset s.store) ..)

theorem reelaborate_moves (s : Simulator μ) (pending : Bool) :
    Relation.ReflTransGen Moves (s, pending)
      (s.reelaborate.2, !s.reelaborate.1.isOk && pending) := by
  unfold reelaborate
  split
  · exact .refl
  · next h => exact .single (.elaborate h)

theorem edit_moves (s : Simulator μ) (pending : Bool) (e : Edit μ) :
    Relation.ReflTransGen Moves (s, pending)
      ((s.edit e).2, pending || ((s.edit e).1.isOk && !e.isIdle)) := by
  unfold edit
  split
  · next h => exact .single (.edit h)
  · rw [show (Except.isOk (Except.error _ : Except EditError EditResult)) = false from rfl,
      Bool.false_and, Bool.or_false]

/-- Edits in order, up to the first that is refused. -/
theorem applyAll_moves (s : Simulator μ) (pending : Bool) (edits : List (Edit μ)) :
    Relation.ReflTransGen Moves (s, pending)
      ({ s with design := (s.design.applyAll edits).design },
        pending ||
          (edits.take (s.design.applyAll edits).results.length).any fun e => !e.isIdle) := by
  induction edits generalizing s pending with
  | nil =>
    rw [List.take_nil, List.any_nil, Bool.or_false]
    exact .refl
  | cons e rest ih =>
    unfold Design.applyAll
    split
    · rw [List.length_nil, List.take_zero, List.any_nil, Bool.or_false]
    · next result design h =>
      rw [List.length_cons, List.take_succ_cons, List.any_cons, ← Bool.or_assoc]
      exact (Relation.ReflTransGen.single (.edit h)).trans
        (ih { s with design } (pending || !e.isIdle))

theorem restructure_moves (s : Simulator μ) (pending : Bool) (edits : List (Edit μ)) :
    Relation.ReflTransGen Moves (s, pending)
      ((s.restructure edits).2, !(s.restructure edits).1.1.isOk && (pending ||
        (edits.take (s.restructure edits).1.2.length).any fun e => !e.isIdle)) := by
  have hedits := applyAll_moves s pending edits
  unfold restructure
  simp only
  split
  · exact hedits
  · exact hedits.trans (reelaborate_moves ..)

/-- An operation is made of moves, and its outcome tells whether a change is pending. -/
theorem perform_moves (s : Simulator μ) (pending : Bool) (c : Command μ) :
    Relation.ReflTransGen Moves (s, pending)
      ((s.perform c).2, c.pendingAfter (s.perform c).1 pending) := by
  cases c with
  | poke a value =>
    rw [Command.pendingAfter_eq rfl rfl]
    exact poke_moves s pending a value
  | tick =>
    rw [Command.pendingAfter_eq rfl rfl]
    exact tick_moves s pending
  | run cycles =>
    rw [Command.pendingAfter_eq rfl rfl]
    exact run_moves s pending cycles
  | reset =>
    rw [Command.pendingAfter_eq rfl rfl]
    exact reset_moves s pending
  | reelaborate =>
    have hmade : (Command.reelaborate : Command μ).made (s.perform .reelaborate).1 = [] := rfl
    unfold Command.pendingAfter
    rw [hmade, List.any_nil, Bool.or_false]
    exact reelaborate_moves s pending
  | restructure edits => exact restructure_moves s pending edits
  | edit e =>
    have hpending : (Command.edit e).pendingAfter (s.perform (.edit e)).1 pending =
        (pending || ((s.edit e).1.isOk && !e.isIdle)) := Command.pendingAfter_edit ..
    rw [hpending]
    exact edit_moves s pending e

/-- What every move preserves, an operation preserves. -/
theorem perform_preserves {P : Simulator μ × Bool → Prop}
    (hmove : ∀ {p p'}, Moves p p' → P p → P p') {s : Simulator μ} {pending : Bool}
    (hs : P (s, pending)) (c : Command μ) :
    P ((s.perform c).2, c.pendingAfter (s.perform c).1 pending) := by
  have hmoves : ∀ {p}, Relation.ReflTransGen Moves (s, pending) p → P p := by
    intro p hp
    induction hp with
    | refl => exact hs
    | tail _ h ih => exact hmove h ih
  exact hmoves (perform_moves s pending c)

/-! ## All reachable states -/

/-- The states that commands lead to, with the aggregate of the design asked for at any time. -/
inductive Reachable : Simulator μ → Prop where
  | new {design config memory s} (hd : design.Built)
      (h : Simulator.new design config memory = .ok s) : Reachable s
  | perform {s} (hs : Reachable s) (c : Command μ) : Reachable (s.perform c).2
  | aggregate {s} (hs : Reachable s) :
      Reachable { s with design.hierarchy := s.design.hierarchy.aggregate.2 }

variable {s s' : Simulator μ}

/-- Elaboration, tick and store belong together. -/
structure Coherent (s : Simulator μ) : Prop where
  built : s.design.Built
  compiled : ∃ d : Design μ, ∃ config, d.Built ∧
    s.design.signals.Extends d.signals ∧ d.compile config = .ok (s.elaboration, s.tickProcedure)
  store : s.store.reset = SignalStore.ofNets s.elaboration.nets
  steady : s.store.Steady

theorem Moves.coherent {p p' : Simulator μ × Bool} (h : Moves p p') (hp : p.1.Coherent) :
    p'.1.Coherent := by
  cases h with
  | values h memory cycle halted lastTick =>
    exact ⟨hp.built, hp.compiled, h.reset_eq.trans hp.store, hp.steady.updates h⟩
  | edit h =>
    obtain ⟨d, config, hd, hsignals, hcompile⟩ := hp.compiled
    exact ⟨hp.built.apply h,
      ⟨d, config, hd, (Design.extends_apply h).trans hsignals, hcompile⟩, hp.store, hp.steady⟩
  | elaborate h =>
    exact ⟨hp.built, ⟨_, _, hp.built, .refl _, h⟩,
      (SignalStore.reset_carry ..).trans (SignalStore.reset_ofNets _),
      (SignalStore.steady_ofNets _).carry _⟩

/-- A new simulator is made of a compiled design. -/
theorem new_eq_ok {design : Design μ} {config : SimConfig} {memory : μ}
    (h : Simulator.new design config memory = .ok s) :
    ∃ elaboration tickProcedure, design.compile config = .ok (elaboration, tickProcedure) ∧
      s = {
        design, config, elaboration, tickProcedure, memory
        store := SignalStore.ofNets elaboration.nets
        cycle := 0
        halted := false
        lastTick := ⟨0, 0⟩ } := by
  simp only [Simulator.new, bind, Except.bind] at h
  split at h
  · cases h
  · next p hp => exact ⟨p.1, p.2, hp, (Except.ok.inj h).symm⟩

theorem new_coherent {design : Design μ} {config : SimConfig} {memory : μ} (hd : design.Built)
    (h : Simulator.new design config memory = .ok s) : s.Coherent := by
  obtain ⟨elaboration, tickProcedure, hcompile, rfl⟩ := new_eq_ok h
  exact ⟨hd, ⟨design, config, hd, .refl _, hcompile⟩, SignalStore.reset_ofNets _,
    SignalStore.steady_ofNets _⟩

theorem perform_coherent (hs : s.Coherent) (c : Command μ) : (s.perform c).2.Coherent := by
  have hpair : ((s, false) : Simulator μ × Bool).1.Coherent := hs
  exact perform_preserves (P := fun p => p.1.Coherent) Moves.coherent hpair c

theorem Reachable.coherent (hs : s.Reachable) : s.Coherent := by
  induction hs with
  | new hd h => exact new_coherent hd h
  | perform _ c ih => exact perform_coherent ih c
  | aggregate _ ih => exact ⟨.aggregate ih.built, ih.compiled, ih.store, ih.steady⟩

namespace Coherent

theorem netOf_eq (hs : s.Coherent) : s.store.netOf = s.elaboration.nets.netOf := by
  have h := congrArg SignalStore.netOf hs.store
  exact h

theorem size_eq (hs : s.Coherent) : s.store.cells.size = s.elaboration.nets.size := by
  have h := congrArg (fun st => st.cells.size) hs.store
  simpa [SignalStore.reset, SignalStore.ofNets, NetMap.size] using h

/-- The net of a signal in the store is its net in the elaboration. -/
theorem net?_eq (hs : s.Coherent) (a : SignalId) :
    s.store.net? a = s.elaboration.nets.net? a :=
  SignalStore.net?_of_netOf hs.netOf_eq a

end Coherent

/-- The elaboration of a coherent simulator. -/
structure Elaborated (s : Simulator μ) (d : Design μ) (config : SimConfig) : Prop where
  built : d.Built
  signals : s.design.signals.Extends d.signals
  stages : d.Stages config s.elaboration
  steps : s.tickProcedure.procedure.steps =
    Tick.stepsOf d.hierarchy.block? s.elaboration.schedule.order
  blocks : s.tickProcedure.procedure.steps.map Step.block = s.elaboration.schedule.order

theorem Coherent.elaborated (hs : s.Coherent) : ∃ d config, s.Elaborated d config := by
  obtain ⟨d, config, hd, hsignals, h⟩ := hs.compiled
  obtain ⟨he, htick⟩ := Design.compile_eq_ok h
  obtain ⟨-, hsteps, hall⟩ := Tick.generate_eq_ok htick
  refine ⟨d, config, hd, hsignals, Design.elaborate_eq_ok he, hsteps, ?_⟩
  rw [hsteps]
  exact Tick.map_block_stepsOf hall

/-! ## Completed cycles -/

theorem tick_eq_ok (h : s.tick = (.ok (), s')) :
    s.halted = false ∧ s.tickProcedure.revision = s.design.revision ∧
      ∃ m : Machine μ SignalStore,
        Step.runAll s.cycle s.tickProcedure.procedure.steps ⟨s.memory, s.store⟩ = (.ok (), m) ∧
          s'.store = m.signals := by
  unfold tick at h
  split at h
  · cases h
  · next hhalted =>
    split at h
    · cases h
    · next hstale =>
      split at h
      · next m hcall =>
        obtain ⟨-, rfl⟩ := Prod.mk.inj h
        unfold Tick.call at hcall
        rw [Procedure.run_eq] at hcall
        exact ⟨by simpa using hhalted, by simpa using hstale, m, hcall, rfl⟩
      · cases h

end Simulator

end Cyclewise
