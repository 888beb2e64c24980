import Cyclewise.Block.Stock
import Cyclewise.Proofs.Net.Drivers
import Cyclewise.Proofs.Simulator

/-!
# Constants

A constant drives its net, and the cell of that net takes no writes.  So in every state that a
simulator gets into a constant that no block writes reads its value (`const_peek`): the cell starts
with it, and neither writes nor resets nor a new elaboration change a cell that takes no writes
(`SignalStore.Steady`).

A constant that a block writes itself is not refused, since the net then has one driving member and
one writing block.  The block drives the net, and the value of the constant is nowhere
(`overwritten_const`).
-/

namespace Cyclewise

/-! ## The driver of a constant net -/

/-- In resolved nets, a constant drives its net unless a block writes the constant. -/
theorem Resolves.driver_of_const {signals : SignalTable} {connections : List Connection}
    {x : Extraction} {nets : NetMap} (h : Resolves signals connections x nets) {k : SignalId}
    {decl : SignalDef} {v : UInt64} {n : NetId} (hk : signals.get? k = some decl)
    (hkind : decl.kind = .const v) (hn : nets.net? k = some n) :
    ((∀ b, ¬ x.Writes b k) → nets.driver n = some (.const k v)) ∧
      ∀ b, x.Writes b k → ∃ b', nets.driver n = some (.block b' k) := by
  have hconst : signals.IsConst k v := ⟨decl, hk, hkind⟩
  have hdriving : k ∈ (Wiring.ofDesign signals connections x).driving n :=
    Wiring.mem_driving.2 (.inr ⟨v, h.mem_constants.2 ⟨hconst, hn⟩⟩)
  refine ⟨fun hunwritten => h.driven.const.2 ⟨fun b t hwrite ht => ?_, hconst, hn⟩,
    fun b hb => ⟨b, h.driven.block.2 ⟨hb, hn⟩⟩⟩
  -- a written member drives the net as well, so it is the constant itself
  obtain rfl := Wiring.driving_unique (h.not_contested (h.index_lt_size hn)) hdriving
    (Wiring.mem_driving.2 (.inl ⟨b, h.mem_claims.2 ⟨hwrite, ht⟩⟩))
  exact hunwritten b hwrite

/-! ## The cell of a net -/

theorem SignalStore.cell_ofNets {nets : NetMap} {n : NetId} (hn : n.index < nets.size) :
    (SignalStore.ofNets nets).cell n = some (Cell.ofDriver (nets.driver n)) := by
  unfold SignalStore.cell SignalStore.ofNets NetMap.driver NetMap.get
  rw [Array.getElem?_map, Array.getElem?_eq_getElem hn, Array.getD_eq_getD_getElem?,
    Array.getElem?_eq_getElem hn]
  rfl

/-- The cell of a net is that of its driver, but for the value. -/
theorem SignalStore.exists_cell {nets : NetMap} {st : SignalStore} (hst : st.reset = ofNets nets)
    {n : NetId} (hn : n.index < nets.size) : ∃ c, st.cell n = some c ∧
      { c with value := c.initial } = Cell.ofDriver (nets.driver n) := by
  have hcell : st.reset.cell n = some (Cell.ofDriver (nets.driver n)) := by
    rw [hst]
    exact cell_ofNets hn
  unfold cell reset at hcell
  rw [Array.getElem?_map] at hcell
  exact Option.map_eq_some_iff.1 hcell

namespace Simulator

variable {μ : Type} {s : Simulator μ}

/-- The value of a covered signal is that of the cell of its net. -/
theorem Coherent.peek_eq (hs : s.Coherent) {a : SignalId} {n : NetId} {c : Cell}
    (hn : s.elaboration.nets.net? a = some n) (hc : s.store.cell n = some c) :
    s.peek a = some c.value := by
  unfold peek
  rw [SignalStore.read?_eq, hs.net?_eq, hn, Option.bind_some, hc, Option.map_some]

/-- A poke of a signal whose cell takes writes sets its value. -/
theorem Coherent.poke_eq (hs : s.Coherent) {a : SignalId} {n : NetId} {c : Cell}
    (hn : s.elaboration.nets.net? a = some n) (hc : s.store.cell n = some c)
    (hfree : c.fixed = false) (value : UInt64) :
    ∃ s', s.poke a value = (.ok (), s') ∧ s'.peek a = some value := by
  obtain ⟨store, hwrite⟩ := SignalStore.exists_write ((hs.net?_eq a).trans hn) hc hfree value
  refine ⟨{ s with store }, ?_, SignalStore.read?_of_write hwrite⟩
  unfold poke
  rw [hwrite]

/-- **Constants.**  A covered signal that is declared constant reads its value in every reachable
state, provided that no block of the current elaboration writes this very signal.  If one does, the
signal is no constant at all: every poke of it succeeds. -/
theorem const_peek (hs : s.Reachable) {k : SignalId} {decl : SignalDef} {v : UInt64} {n : NetId}
    (hk : s.design.signals.get? k = some decl) (hkind : decl.kind = .const v)
    (hcovered : s.elaboration.nets.net? k = some n) :
    ((∀ b, ¬ s.elaboration.extraction.Writes b k) → s.peek k = some v) ∧
      ∀ b, s.elaboration.extraction.Writes b k → ∀ value,
        ∃ s', s.poke k value = (.ok (), s') ∧ s'.peek k = some value := by
  have hcoherent := hs.coherent
  obtain ⟨d, config, he⟩ := hcoherent.elaborated
  have hnets := he.stages.resolves
  have hdeclared : d.signals.get? k = some decl := by
    obtain ⟨decl', hdecl'⟩ : ∃ decl', d.signals.get? k = some decl' :=
      ⟨_, Array.getElem?_eq_getElem (hnets.lt_of_net? hcovered)⟩
    rw [hdecl', ← hk, he.signals k decl' hdecl']
  obtain ⟨hconst, hblock⟩ := hnets.driver_of_const hdeclared hkind hcovered
  obtain ⟨c, hc, hdriver⟩ :=
    SignalStore.exists_cell hcoherent.store (hnets.index_lt_size hcovered)
  constructor
  · intro hunwritten
    rw [hconst hunwritten] at hdriver
    have hfixed : c.fixed = true := congrArg Cell.fixed hdriver
    have hinitial : c.initial = v := congrArg Cell.initial hdriver
    rw [hcoherent.peek_eq hcovered hc, hcoherent.steady n c hc hfixed, hinitial]
  · intro b hb value
    obtain ⟨b', hb'⟩ := hblock b hb
    rw [hb'] at hdriver
    exact hcoherent.poke_eq hcovered hc (congrArg Cell.fixed hdriver) value

/-- Signals 0 and 1 are constants, and the block writes signal 0. -/
def overwritten : Design Unit :=
  Design.ofEdits "top"
    [.declare "k" (.const 5) "Bits8" Hierarchy.top, .declare "c" (.const 7) "Bits8" Hierarchy.top,
      .registerBlock Hierarchy.top (.constant "drive" ⟨0⟩ 1)]

/-- After a cycle, the constant that the block leaves alone has its value, and the other one can be
set. -/
theorem overwritten_peek : ∃ s s' : Simulator Unit, Simulator.new overwritten {} () = .ok s ∧
    s.tick.2.peek ⟨1⟩ = some 7 ∧ s.tick.2.poke ⟨0⟩ 3 = (.ok (), s') ∧ s'.peek ⟨0⟩ = some 3 := by
  have hcheck : ((Simulator.new overwritten {} ()).toOption.any fun s =>
      decide (s.tick.2.elaboration.nets.net? ⟨0⟩ = some ⟨0⟩) &&
      decide (s.tick.2.elaboration.nets.net? ⟨1⟩ = some ⟨1⟩) &&
      ((s.tick.2.design.signals.get? ⟨0⟩).any fun d => decide (d.kind = .const 5)) &&
      ((s.tick.2.design.signals.get? ⟨1⟩).any fun d => decide (d.kind = .const 7)) &&
      decide (s.tick.2.elaboration.extraction.analyzed.keys = [⟨0⟩]) &&
      ((s.tick.2.elaboration.extraction.access? ⟨0⟩).any fun access =>
        access.writes.contains ⟨0⟩ && !access.writes.contains ⟨1⟩)) = true := by
    decide +kernel
  obtain ⟨s, hnew, hcheck⟩ := Design.exists_ok_of_any hcheck
  simp only [Bool.and_eq_true, decide_eq_true_eq, Option.any_eq_true] at hcheck
  obtain ⟨⟨⟨⟨⟨hnet₀, hnet₁⟩, ⟨decl₀, hdecl₀, hkind₀⟩⟩, ⟨decl₁, hdecl₁, hkind₁⟩⟩, hkeys⟩,
    access, haccess, hwrite, hnowrite⟩ := hcheck
  have hs : s.tick.2.Reachable := (Reachable.new (Design.built_ofEdits _ _) hnew).perform .tick
  have hunwritten : ∀ b, ¬ s.tick.2.elaboration.extraction.Writes b ⟨1⟩ := by
    rintro b ⟨access', haccess', hmem⟩
    have hb := Extraction.mem_keys_of_access? haccess'
    rw [hkeys, List.mem_singleton] at hb
    subst hb
    obtain rfl := Option.some.inj (haccess.symm.trans haccess')
    rw [SignalSet.contains_eq_true.2 hmem] at hnowrite
    cases hnowrite
  obtain ⟨s', hpoke, hpeek⟩ := (const_peek hs hdecl₀ hkind₀ hnet₀).2 ⟨0⟩ ⟨access, haccess, hwrite⟩ 3
  exact ⟨s, s', hnew, (const_peek hs hdecl₁ hkind₁ hnet₁).1 hunwritten, hpoke, hpeek⟩

/-- A constant that a block writes does not have its value, even in a new simulator. -/
theorem overwritten_const : ∃ s : Simulator Unit, Simulator.new overwritten {} () = .ok s ∧
    s.elaboration.nets.net? ⟨0⟩ = some ⟨0⟩ ∧
    (∃ decl, s.design.signals.get? ⟨0⟩ = some decl ∧ decl.kind = .const 5) ∧
    s.peek ⟨0⟩ = some 0 := by
  have hcheck : ((Simulator.new overwritten {} ()).toOption.any fun s =>
      decide (s.elaboration.nets.net? ⟨0⟩ = some ⟨0⟩) &&
      ((s.design.signals.get? ⟨0⟩).any fun d => decide (d.kind = .const 5)) &&
      decide (s.peek ⟨0⟩ = some 0)) = true := by
    decide +kernel
  obtain ⟨s, hnew, hcheck⟩ := Design.exists_ok_of_any hcheck
  simp only [Bool.and_eq_true, decide_eq_true_eq, Option.any_eq_true] at hcheck
  obtain ⟨⟨hnet, hdecl⟩, hpeek⟩ := hcheck
  exact ⟨s, hnew, hnet, hdecl, hpeek⟩

end Simulator

end Cyclewise
