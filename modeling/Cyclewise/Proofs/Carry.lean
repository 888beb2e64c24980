import Cyclewise.Proofs.Atomicity
import Cyclewise.Proofs.Constants
import Cyclewise.Proofs.Net.Canonical

/-!
# Values across elaborations

Edits only add declarations and connections (`Reworked.connections_prefix`).  So a new elaboration
may join nets, but it does not separate signals that shared a net (`Resolves.net?_grown`).  Its
nets start with the values of their drivers, and those that no constant drives take over the value
of their lowest member that the elaboration before covered (`read?_carry_ofNets`).

A net that neither a lower signal nor a constant has joined keeps its value, but for one case: if a
block that wrote a constant is gone, the constant drives its net from then on (`released_constant`).
-/

namespace Cyclewise

/-! ## Designs that grow -/

namespace Design

variable {μ : Type} {d d' : Design μ}

theorem Changes.connections_prefix (hc : d.Changes d') : d.connections <+: d'.connections := by
  cases hc with
  | hierarchy _ _ => exact List.prefix_rfl
  | signals _ _ => exact List.prefix_rfl
  | connections a b => exact List.prefix_append _ _

/-- Connections are only added. -/
theorem Reworked.connections_prefix (h : d.Reworked d') : d.connections <+: d'.connections := by
  induction h with
  | refl => exact List.prefix_rfl
  | apply _ he ih =>
    rcases apply_eq_ok he with ⟨-, rfl⟩ | ⟨-, hchange⟩
    · exact ih
    · exact ih.trans hchange.connections_prefix
  | aggregate _ ih => exact ih

end Design

namespace Resolves

variable {signals signals' : SignalTable} {connections connections' : List Connection}
  {x x' : Extraction} {nets nets' : NetMap}

/-- With more declarations and connections, signals of one net stay together. -/
theorem net?_grown (h : Resolves signals connections x nets)
    (h' : Resolves signals' connections' x' nets') (hsignals : signals'.Extends signals)
    (hconnections : connections ⊆ connections') {a b : SignalId} {n : NetId}
    (ha : nets.net? a = some n) (hb : nets.net? b = some n) : nets'.net? a = nets'.net? b := by
  have hconnected : Connected connections a b :=
    (h.net?_eq_iff (h.lt_of_net? ha) (h.lt_of_net? hb)).1 (ha.trans hb.symm)
  refine (h'.net?_eq_iff (hsignals.lt_size (h.lt_of_net? ha))
    (hsignals.lt_size (h.lt_of_net? hb))).2 ?_
  exact connected_of_forall (fun c hc => .rel _ _ (hconnections hc)) hconnected

end Resolves

/-! ## Stores of new nets -/

/-- In an ascending list the first hit is the lowest one. -/
theorem exists_lowest_of_findSome? {α : Type} {as : List SignalId}
    (has : as.Pairwise (·.index < ·.index)) {f : SignalId → Option α} {v : α}
    (h : as.findSome? f = some v) :
    ∃ m ∈ as, f m = some v ∧ ∀ t ∈ as, (f t).isSome → m.index ≤ t.index := by
  obtain ⟨before, m, after, rfl, hm, hbefore⟩ := List.findSome?_eq_some_iff.1 h
  refine ⟨m, by simp, hm, fun t ht hsome => ?_⟩
  rw [List.mem_append] at ht
  rcases ht with ht | ht
  · rw [hbefore t ht] at hsome
    cases hsome
  · rcases List.mem_cons.1 ht with rfl | ht
    · exact Nat.le_refl _
    · exact Nat.le_of_lt (List.rel_of_pairwise_cons (List.pairwise_append.1 has).2.1 ht)

/-- In a store of new nets that takes over the values of an earlier store, a signal whose net no
constant drives reads the first value of a member of the net, or else 0. -/
theorem SignalStore.read?_carry_ofNets {nets : NetMap} (earlier : SignalStore) {a : SignalId}
    {n : NetId} (ha : nets.net? a = some n) (hn : n.index < nets.size)
    (hfree : ∀ k v, nets.driver n ≠ some (.const k v)) :
    ((ofNets nets).carry earlier).read? a =
      some ((((ofNets nets).members n).findSome? earlier.read?).getD 0) := by
  have hcell : Cell.ofDriver (nets.driver n) = ⟨0, 0, false⟩ := by
    unfold Cell.ofDriver
    split
    · next hdriver => exact absurd hdriver (hfree _ _)
    · rfl
    · rfl
  have hnet : ((ofNets nets).carry earlier).net? a = some n := (net?_of_netOf rfl a).trans ha
  rw [read?_eq, hnet, Option.bind_some, cell_carry, cell_ofNets hn, hcell]
  rfl

namespace Simulator

variable {μ : Type} {s s' : Simulator μ}

/-- The elaboration of a simulator covers a signal. -/
def Covers (s : Simulator μ) (a : SignalId) : Prop := (s.elaboration.nets.net? a).isSome

/-- The covered signal with the lowest number among some signals. -/
structure LowestCovered (s : Simulator μ) (as : List SignalId) (m : SignalId) : Prop where
  mem : m ∈ as
  covered : s.Covers m
  le : ∀ t ∈ as, s.Covers t → m.index ≤ t.index

/-- A constant signal that a block wrote before, in `s`, and that none writes now, in `s'`. -/
structure Releases (s s' : Simulator μ) (k : SignalId) (v : UInt64) : Prop where
  const : s'.design.signals.IsConst k v
  written : ∃ b, s.elaboration.extraction.Writes b k
  unwritten : ∀ b, ¬ s'.elaboration.extraction.Writes b k

/-- What becomes of the values when a design is elaborated anew, `s` being the simulator before and
`s'` the one after. -/
structure CarriesOver (s s' : Simulator μ) : Prop where
  cycle : s'.cycle = s.cycle
  covers : ∀ a, a.index < s'.design.signals.size → s'.Covers a
  /-- A constant that drives the net of a signal is its value. -/
  constant : ∀ {a n k v}, s'.elaboration.nets.net? a = some n →
    s'.elaboration.nets.driver n = some (.const k v) → s'.peek a = some v
  /-- Otherwise the lowest covered member of the net gives it its old value. -/
  carried : ∀ {a n t}, s'.elaboration.nets.net? a = some n →
    (∀ k v, s'.elaboration.nets.driver n ≠ some (.const k v)) →
    t ∈ s'.elaboration.nets.members n → s.Covers t →
    ∃ m v, s.LowestCovered (s'.elaboration.nets.members n) m ∧ s.peek m = some v ∧
      s'.peek a = some v
  /-- Without a covered member the value is 0. -/
  fresh : ∀ {a n}, s'.elaboration.nets.net? a = some n →
    (∀ k v, s'.elaboration.nets.driver n ≠ some (.const k v)) →
    (∀ t ∈ s'.elaboration.nets.members n, ¬ s.Covers t) → s'.peek a = some 0
  /-- Signals that shared a net still do. -/
  together : ∀ {a b n}, s.elaboration.nets.net? a = some n → s.elaboration.nets.net? b = some n →
    s'.elaboration.nets.net? a = s'.elaboration.nets.net? b
  /-- A value stays unless a lower covered signal has joined the net, or a constant that did not
  drive it before drives it now. -/
  kept : ∀ {a n n'}, s.elaboration.nets.net? a = some n → s'.elaboration.nets.net? a = some n' →
    (∀ t ∈ s'.elaboration.nets.members n', s.Covers t →
      ∃ u ∈ s.elaboration.nets.members n, u.index ≤ t.index) →
    (∀ k v, s'.elaboration.nets.driver n' = some (.const k v) →
      s.elaboration.nets.driver n = some (.const k v)) →
    s'.peek a = s.peek a
  /-- A value stays if neither a lower covered signal nor a constant has joined the net, unless a
  constant of the net is released. -/
  unjoined : ∀ {a n n'}, s.elaboration.nets.net? a = some n →
    s'.elaboration.nets.net? a = some n' →
    (∀ t ∈ s'.elaboration.nets.members n', s.Covers t →
      ∃ u ∈ s.elaboration.nets.members n, u.index ≤ t.index) →
    (∀ k v, k ∈ s'.elaboration.nets.members n' → s'.design.signals.IsConst k v →
      k ∈ s.elaboration.nets.members n) →
    (∀ k v, k ∈ s.elaboration.nets.members n → ¬ s.Releases s' k v) →
    s'.peek a = s.peek a
  /-- A released constant is the value of its net. -/
  released : ∀ {a n k v}, s.elaboration.nets.net? a = some n →
    k ∈ s.elaboration.nets.members n → s.Releases s' k v → s'.peek a = some v

/-- The elaboration is that of a design which edits have led on to the present one. -/
def Descends (s : Simulator μ) : Prop := ∃ d : Design μ, ∃ config,
  d.Reworked s.design ∧ d.compile config = .ok (s.elaboration, s.tickProcedure)

theorem Moves.descends {p p' : Simulator μ × Bool} (h : Moves p p') (hp : p.1.Descends) :
    p'.1.Descends := by
  cases h with
  | values h memory cycle halted lastTick => exact hp
  | edit h =>
    obtain ⟨d, config, hrework, hcompile⟩ := hp
    exact ⟨d, config, hrework.apply h, hcompile⟩
  | elaborate h => exact ⟨_, _, .refl, h⟩

theorem Reachable.descends (hs : s.Reachable) : s.Descends := by
  induction hs with
  | new hd h =>
    obtain ⟨elaboration, tickProcedure, hcompile, rfl⟩ := new_eq_ok h
    exact ⟨_, _, .refl, hcompile⟩
  | @perform s _ c ih =>
    have hpair : ((s, false) : Simulator μ × Bool).1.Descends := ih
    exact perform_preserves (P := fun p => p.1.Descends) Moves.descends hpair c
  | aggregate _ ih =>
    obtain ⟨d, config, hrework, hcompile⟩ := ih
    exact ⟨d, config, hrework.aggregate, hcompile⟩

/-- Just the covered signals have values. -/
theorem Coherent.isSome_peek (hs : s.Coherent) {a : SignalId} : (s.peek a).isSome ↔ s.Covers a := by
  obtain ⟨d, config, he⟩ := hs.elaborated
  unfold Covers
  cases hn : s.elaboration.nets.net? a with
  | none =>
    unfold peek
    rw [SignalStore.read?_eq, hs.net?_eq, hn]
    simp
  | some n =>
    obtain ⟨c, hc, -⟩ := SignalStore.exists_cell hs.store (he.stages.resolves.index_lt_size hn)
    rw [hs.peek_eq hn hc]
    simp

/-- Signals of one net have one value. -/
theorem Coherent.peek_congr (hs : s.Coherent) {a b : SignalId}
    (h : s.elaboration.nets.net? a = s.elaboration.nets.net? b) : s.peek a = s.peek b := by
  unfold peek
  rw [SignalStore.read?_eq, SignalStore.read?_eq, hs.net?_eq, hs.net?_eq, h]

/-- A signal in a net that a constant drives reads the constant. -/
theorem Coherent.peek_const (hs : s.Coherent) {a k : SignalId} {n : NetId} {v : UInt64}
    (hn : s.elaboration.nets.net? a = some n)
    (hdriver : s.elaboration.nets.driver n = some (.const k v)) : s.peek a = some v := by
  obtain ⟨d, config, he⟩ := hs.elaborated
  obtain ⟨c, hc, hcell⟩ := SignalStore.exists_cell hs.store (he.stages.resolves.index_lt_size hn)
  rw [hdriver] at hcell
  have hfixed : c.fixed = true := congrArg Cell.fixed hcell
  have hinitial : c.initial = v := congrArg Cell.initial hcell
  rw [hs.peek_eq hn hc, hs.steady n c hc hfixed, hinitial]

theorem reelaborate_eq_ok (h : s.reelaborate.1 = .ok ()) : ∃ e t,
    s.design.compile s.config = .ok (e, t) ∧
      s.reelaborate.2 = { s with
        elaboration := e
        tickProcedure := t
        store := (SignalStore.ofNets e.nets).carry s.store
        halted := false } := by
  unfold reelaborate at h ⊢
  split at h
  · cases h
  · next e t hcompile => exact ⟨e, t, hcompile, rfl⟩

/-! ## The step to a new elaboration -/

/-- The simulator `s'` comes from `s`, whose elaboration is that of `d`, by edits and a successful
elaboration. -/
structure Renewed (s : Simulator μ) (d : Design μ) (s' : Simulator μ) : Prop where
  before : s.Coherent
  after : s'.Coherent
  resolved : Resolves d.signals d.connections s.elaboration.extraction s.elaboration.nets
  resolves : Resolves s'.design.signals s'.design.connections s'.elaboration.extraction
    s'.elaboration.nets
  signals : s'.design.signals.Extends d.signals
  connections : d.connections <+: s'.design.connections
  store : s'.store = (SignalStore.ofNets s'.elaboration.nets).carry s.store
  cycle : s'.cycle = s.cycle

theorem Reachable.exists_renewed (hs : s.Reachable) {d : Design μ} (h : s.design.Reworked d)
    (hok : { s with design := d }.reelaborate.1 = .ok ()) :
    ∃ d₀, s.Renewed d₀ { s with design := d }.reelaborate.2 := by
  obtain ⟨d₀, config, hrework, hcompiled⟩ := hs.descends
  obtain ⟨e, t, hcompile, heq⟩ := reelaborate_eq_ok hok
  have hafter : { s with design := d }.reelaborate.2.Coherent :=
    ((hs.rework h).perform .reelaborate).coherent
  rw [heq] at hafter ⊢
  exact ⟨d₀, {
    before := hs.coherent
    after := hafter
    resolved := (Design.elaborate_eq_ok (Design.compile_eq_ok hcompiled).1).resolves
    resolves := (Design.elaborate_eq_ok (Design.compile_eq_ok hcompile).1).resolves
    signals := h.extends.trans hrework.extends
    connections := hrework.connections_prefix.trans h.connections_prefix
    store := rfl
    cycle := rfl }⟩

namespace Renewed

variable {d : Design μ} (h : s.Renewed d s') {a b k t : SignalId} {n n' : NetId} {v : UInt64}

include h

/-- Signals that shared a net still do. -/
theorem together (ha : s.elaboration.nets.net? a = some n)
    (hb : s.elaboration.nets.net? b = some n) :
    s'.elaboration.nets.net? a = s'.elaboration.nets.net? b :=
  h.resolved.net?_grown h.resolves h.signals h.connections.subset ha hb

theorem peek_free (ha : s'.elaboration.nets.net? a = some n)
    (hfree : ∀ k v, s'.elaboration.nets.driver n ≠ some (.const k v)) :
    s'.peek a =
      some ((((SignalStore.ofNets s'.elaboration.nets).members n).findSome? s.peek).getD 0) := by
  unfold peek
  rw [h.store]
  exact SignalStore.read?_carry_ofNets s.store ha (h.resolves.index_lt_size ha) hfree

theorem mem_members : t ∈ (SignalStore.ofNets s'.elaboration.nets).members n ↔
    t ∈ s'.elaboration.nets.members n := by
  rw [SignalStore.mem_members, SignalStore.net?_of_netOf rfl, h.resolves.mem_members]

theorem carried (ha : s'.elaboration.nets.net? a = some n)
    (hfree : ∀ k v, s'.elaboration.nets.driver n ≠ some (.const k v))
    (ht : t ∈ s'.elaboration.nets.members n) (hcovered : s.Covers t) :
    ∃ m v, s.LowestCovered (s'.elaboration.nets.members n) m ∧ s.peek m = some v ∧
      s'.peek a = some v := by
  rw [h.peek_free ha hfree]
  cases hfirst : ((SignalStore.ofNets s'.elaboration.nets).members n).findSome? s.peek with
  | none =>
    have hnone := List.findSome?_eq_none_iff.1 hfirst t (h.mem_members.2 ht)
    have hsome := h.before.isSome_peek.2 hcovered
    rw [hnone] at hsome
    cases hsome
  | some v =>
    obtain ⟨m, hm, hv, hle⟩ :=
      exists_lowest_of_findSome? (SignalStore.members_ascend _ n) hfirst
    refine ⟨m, v, ⟨h.mem_members.1 hm, ?_, fun t ht hcovered => ?_⟩, hv, rfl⟩
    · rw [← h.before.isSome_peek, hv, Option.isSome_some]
    · exact hle t (h.mem_members.2 ht) (h.before.isSome_peek.2 hcovered)

theorem fresh (ha : s'.elaboration.nets.net? a = some n)
    (hfree : ∀ k v, s'.elaboration.nets.driver n ≠ some (.const k v))
    (hnone : ∀ t ∈ s'.elaboration.nets.members n, ¬ s.Covers t) : s'.peek a = some 0 := by
  have hfirst : ((SignalStore.ofNets s'.elaboration.nets).members n).findSome? s.peek = none := by
    refine List.findSome?_eq_none_iff.2 fun t ht => ?_
    rw [← Option.not_isSome_iff_eq_none, h.before.isSome_peek]
    exact hnone t (h.mem_members.1 ht)
  rw [h.peek_free ha hfree, hfirst, Option.getD_none]

theorem kept (ha : s.elaboration.nets.net? a = some n) (ha' : s'.elaboration.nets.net? a = some n')
    (hlow : ∀ t ∈ s'.elaboration.nets.members n', s.Covers t →
      ∃ u ∈ s.elaboration.nets.members n, u.index ≤ t.index)
    (hconst : ∀ k v, s'.elaboration.nets.driver n' = some (.const k v) →
      s.elaboration.nets.driver n = some (.const k v)) :
    s'.peek a = s.peek a := by
  by_cases hfree : ∀ k v, s'.elaboration.nets.driver n' ≠ some (.const k v)
  · have hcovers : ∀ {u}, u ∈ s.elaboration.nets.members n → s.Covers u := fun hu => by
      unfold Covers
      rw [h.resolved.mem_members.1 hu, Option.isSome_some]
    have hamem := h.resolved.mem_members.2 ha
    obtain ⟨m, v, hm, hv, hpeek⟩ :=
      h.carried ha' hfree (h.resolves.mem_members.2 ha') (hcovers hamem)
    -- an old member is as low as the lowest one, and is in the new net as well
    obtain ⟨u, hu, hle⟩ := hlow m hm.mem hm.covered
    have hnet := h.resolved.mem_members.1 hu
    have hmem : u ∈ s'.elaboration.nets.members n' :=
      h.resolves.mem_members.2 ((h.together hnet ha).trans ha')
    obtain rfl : u = m :=
      SignalId.eq_of_index u m (Nat.le_antisymm hle (hm.le u hmem (hcovers hu)))
    rw [hpeek, ← hv]
    exact h.before.peek_congr (hnet.trans ha.symm)
  · simp only [ne_eq, not_forall, not_not] at hfree
    obtain ⟨k, v, hdriver⟩ := hfree
    rw [h.after.peek_const ha' hdriver, h.before.peek_const ha (hconst k v hdriver)]

/-- A constant of the old net that newly drives a net is released. -/
theorem releases_of_driver (hk : k ∈ s.elaboration.nets.members n)
    (hdriver : s'.elaboration.nets.driver n' = some (.const k v)) :
    s.elaboration.nets.driver n = some (.const k v) ∨ s.Releases s' k v := by
  have hn := h.resolved.mem_members.1 hk
  obtain ⟨decl, hdecl⟩ := SignalTable.exists_get?_iff.2 (h.resolved.lt_of_net? hn)
  obtain ⟨hunwritten, hconst, hn'⟩ := h.resolves.driven.const.1 hdriver
  obtain ⟨decl', hdecl', hkind⟩ := hconst
  obtain rfl := Option.some.inj ((h.signals k decl hdecl).symm.trans hdecl')
  by_cases hwritten : ∃ b, s.elaboration.extraction.Writes b k
  · exact .inr ⟨⟨decl, hdecl', hkind⟩, hwritten, fun b hb => hunwritten b k hb hn'⟩
  · rw [not_exists] at hwritten
    exact .inl ((h.resolved.driver_of_const hdecl hkind hn).1 hwritten)

theorem unjoined (ha : s.elaboration.nets.net? a = some n)
    (ha' : s'.elaboration.nets.net? a = some n')
    (hlow : ∀ t ∈ s'.elaboration.nets.members n', s.Covers t →
      ∃ u ∈ s.elaboration.nets.members n, u.index ≤ t.index)
    (hjoined : ∀ k v, k ∈ s'.elaboration.nets.members n' → s'.design.signals.IsConst k v →
      k ∈ s.elaboration.nets.members n)
    (hreleased : ∀ k v, k ∈ s.elaboration.nets.members n → ¬ s.Releases s' k v) :
    s'.peek a = s.peek a := by
  refine h.kept ha ha' hlow fun k v hdriver => ?_
  obtain ⟨-, hconst, hn'⟩ := h.resolves.driven.const.1 hdriver
  have hk := hjoined k v (h.resolves.mem_members.2 hn') hconst
  exact (h.releases_of_driver hk hdriver).resolve_right (hreleased k v hk)

theorem released (ha : s.elaboration.nets.net? a = some n)
    (hk : k ∈ s.elaboration.nets.members n) (hreleased : s.Releases s' k v) :
    s'.peek a = some v := by
  obtain ⟨decl, hdecl, hkind⟩ := hreleased.const
  obtain ⟨n', hn'⟩ := h.resolves.exists_net? (SignalTable.lt_size_of_get? hdecl)
  have hdriver := (h.resolves.driver_of_const hdecl hkind hn').1 hreleased.unwritten
  have ha' := (h.together ha (h.resolved.mem_members.1 hk)).trans hn'
  exact h.after.peek_const ha' hdriver

theorem carriesOver : s.CarriesOver s' where
  cycle := h.cycle
  covers a ha := by
    obtain ⟨n, hn⟩ := h.resolves.exists_net? ha
    unfold Covers
    rw [hn, Option.isSome_some]
  constant := h.after.peek_const
  carried := h.carried
  fresh := h.fresh
  together := h.together
  kept := h.kept
  unjoined := h.unjoined
  released := h.released

end Renewed

/-- **Carried values.**  A successful elaboration of a reachable simulator, after whatever changes
of its design, keeps the cycle and carries the values over net by net. -/
theorem reelaborated_values (hs : s.Reachable) :
    (s.reelaborate.1 = .ok () → s.CarriesOver s.reelaborate.2) ∧
    (∀ edits, (s.restructure edits).1.1 = .ok () → s.CarriesOver (s.restructure edits).2) ∧
    ∀ change, s.design.Reworked (change s.design).2 → (s.restructureWith change).1 = .ok () →
      s.CarriesOver (s.restructureWith change).2 := by
  have hrenewed : ∀ {d : Design μ}, s.design.Reworked d →
      { s with design := d }.reelaborate.1 = .ok () →
      s.CarriesOver { s with design := d }.reelaborate.2 := by
    intro d hrework hok
    obtain ⟨d₀, h⟩ := hs.exists_renewed hrework hok
    exact h.carriesOver
  have hchanges : ∀ change, s.design.Reworked (change s.design).2 →
      (s.restructureWith change).1 = .ok () → s.CarriesOver (s.restructureWith change).2 := by
    intro change hrework hok
    unfold restructureWith at hok ⊢
    split at hok
    · next design hchange =>
      rw [hchange] at hrework
      exact hrenewed hrework hok
    · cases hok
  refine ⟨hrenewed .refl, fun edits hok => ?_, hchanges⟩
  have heq := s.restructure_eq edits
  have hkept := hchanges _ (Design.reworked_applyAll s.design edits)
    ((congrArg Prod.fst heq).trans hok)
  rwa [heq] at hkept

/-- Four wires, of which a block copies wire 2 to wire 3. -/
def wires : Design Unit :=
  Design.ofEdits "top"
    [.declare "a" .wire "Bits8" Hierarchy.top, .declare "b" .wire "Bits8" Hierarchy.top,
      .declare "c" .wire "Bits8" Hierarchy.top, .declare "out" .wire "Bits8" Hierarchy.top,
      .registerBlock Hierarchy.top (.copy "observe" ⟨2⟩ ⟨3⟩)]

/-- The wires 0 and 1 are joined, a constant is joined to wire 2, and there is a new wire 5. -/
def joints : List (Edit Unit) :=
  [.connect ⟨1⟩ ⟨0⟩, .declare "k" (.const 3) "Bits8" Hierarchy.top, .connect ⟨2⟩ ⟨4⟩,
    .declare "d" .wire "Bits8" Hierarchy.top]

/-- The wires hold 5, 7, 9 and 0.  Then wire 1 takes over the 5 of wire 0, wire 2 the value of the
constant, and the new one holds 0. -/
theorem wires_values : ∃ s₀ : Simulator Unit, Simulator.new wires {} () = .ok s₀ ∧
    let s := (s₀.performAll [.poke ⟨0⟩ 5, .poke ⟨1⟩ 7, .poke ⟨2⟩ 9]).2
    let s' := (s.restructure joints).2
    s.CarriesOver s' ∧ s.peek ⟨0⟩ = some 5 ∧ s.peek ⟨1⟩ = some 7 ∧ s.peek ⟨2⟩ = some 9 ∧
      s'.peek ⟨0⟩ = some 5 ∧ s'.peek ⟨1⟩ = some 5 ∧ s'.peek ⟨2⟩ = some 3 ∧
      s'.peek ⟨5⟩ = some 0 := by
  have hcheck : ((Simulator.new wires {} ()).toOption.any fun s₀ =>
      let s := (s₀.performAll [.poke ⟨0⟩ 5, .poke ⟨1⟩ 7, .poke ⟨2⟩ 9]).2
      let s' := (s.restructure joints).2
      decide ((s.restructure joints).1.1 = .ok ()) && decide (s.peek ⟨0⟩ = some 5) &&
        decide (s.peek ⟨1⟩ = some 7) && decide (s.peek ⟨2⟩ = some 9) &&
        decide (s'.peek ⟨0⟩ = some 5) && decide (s'.peek ⟨1⟩ = some 5) &&
        decide (s'.peek ⟨2⟩ = some 3) && decide (s'.peek ⟨5⟩ = some 0)) = true := by
    decide +kernel
  obtain ⟨s₀, hnew, hcheck⟩ := Design.exists_ok_of_any hcheck
  simp only [Bool.and_eq_true, decide_eq_true_eq] at hcheck
  obtain ⟨⟨⟨⟨⟨⟨⟨hok, ha⟩, hb⟩, hc⟩, ha'⟩, hb'⟩, hc'⟩, hd'⟩ := hcheck
  have hs : (s₀.performAll [.poke ⟨0⟩ 5, .poke ⟨1⟩ 7, .poke ⟨2⟩ 9]).2.Reachable :=
    (((Reachable.new (Design.built_ofEdits _ _) hnew).perform (.poke ⟨0⟩ 5)).perform
      (.poke ⟨1⟩ 7)).perform (.poke ⟨2⟩ 9)
  exact ⟨s₀, hnew, (reelaborated_values hs).2.1 joints hok, ha, hb, hc, ha', hb', hc', hd'⟩

/-- A component of its own writes the constant 0, and the top component writes the wire 1. -/
def held : Design Unit :=
  Design.ofEdits "top"
    [.declare "k" (.const 5) "Bits8" Hierarchy.top, .declare "a" .wire "Bits8" Hierarchy.top,
      .addComponent Hierarchy.top "sub", .registerBlock ⟨1⟩ (.constant "drive" ⟨0⟩ 1),
      .registerBlock Hierarchy.top (.constant "keep" ⟨1⟩ 2)]

/-- The constant is alone in its net before and after, and holds 1 after a cycle.  Without the
component it holds 5. -/
theorem released_constant : ∃ s₀ : Simulator Unit, Simulator.new held {} () = .ok s₀ ∧
    let s := (s₀.performAll [.tick, .edit (.removeComponent ⟨1⟩)]).2
    s.reelaborate.1 = .ok () ∧
      s.elaboration.nets.members ⟨0⟩ = [⟨0⟩] ∧
      s.reelaborate.2.elaboration.nets.members ⟨0⟩ = [⟨0⟩] ∧
      s.peek ⟨0⟩ = some 1 ∧ s.reelaborate.2.peek ⟨0⟩ = some 5 := by
  have hcheck : ((Simulator.new held {} ()).toOption.any fun s₀ =>
      let s := (s₀.performAll [.tick, .edit (.removeComponent ⟨1⟩)]).2
      decide (s.reelaborate.1 = .ok ()) && decide (s.elaboration.nets.members ⟨0⟩ = [⟨0⟩]) &&
        decide (s.reelaborate.2.elaboration.nets.members ⟨0⟩ = [⟨0⟩]) &&
        decide (s.peek ⟨0⟩ = some 1) && decide (s.reelaborate.2.peek ⟨0⟩ = some 5)) = true := by
    decide +kernel
  obtain ⟨s₀, hnew, hcheck⟩ := Design.exists_ok_of_any hcheck
  simp only [Bool.and_eq_true, decide_eq_true_eq] at hcheck
  obtain ⟨⟨⟨⟨hok, hbefore⟩, hafter⟩, hvalue⟩, hvalue'⟩ := hcheck
  exact ⟨s₀, hnew, hok, hbefore, hafter, hvalue, hvalue'⟩

end Simulator

end Cyclewise
