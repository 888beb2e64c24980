import Cyclewise.Proofs.Block.Acts
import Cyclewise.Proofs.Cycles
import Cyclewise.Proofs.Ring.Schedule
import Cyclewise.Proofs.Slots

/-!
# A ring counts

Within a cycle the signals before the running incrementer have their new values and the others still
have the old ones (`RingStore`).  So each incrementer adds one to what the one before it has just
written, and the first one to what the last one wrote in the cycle before (`RingStore.step`).  Every
cycle adds `n` to all signals (`RingState.tick`), after the first one has counted from one to `n`, and
so the ring counts cycle by cycle (`ring_counts`).
-/

namespace Cyclewise

namespace Design

variable {μ : Type} {n : Nat}

/-! ## One incrementer -/

/-- The value of signal `i` of a ring after some cycles. -/
def ringValue (n i : Nat) : Nat → UInt64
  | 0 => 0
  | k + 1 => UInt64.ofNat (k * n + i + 1)

/-- After the last signal in one cycle comes the first signal in the next one. -/
theorem ringValue_wrap {k : Nat} (hn : 0 < n) :
    ringValue n (n - 1) k + 1 = ringValue n 0 (k + 1) := by
  cases k with
  | zero => simp [ringValue]
  | succ k =>
    have hsum : (k + 1) * n + 0 + 1 = k * n + (n - 1) + 1 + 1 := by
      rw [Nat.succ_mul]
      omega
    simp only [ringValue]
    rw [hsum, UInt64.ofNat_add (k * n + (n - 1) + 1) 1]
    rfl

theorem ringValue_succ {i k : Nat} : ringValue n i (k + 1) + 1 = ringValue n (i + 1) (k + 1) := by
  simp only [ringValue]
  rw [← Nat.add_assoc (k * n), UInt64.ofNat_add (k * n + i + 1) 1]
  rfl

/-- The step of incrementer `i`. -/
def ringStep (n i : Nat) : Step μ :=
  ⟨ringBlock n i, (ringCell n i : UpdateBlock μ).name, (ringCell n i).behavior⟩

/-- An incrementer writes one more than it reads, and leaves the memory alone. -/
theorem run_ringStep {i cycle : Nat} {m : Machine μ SignalStore} {v : UInt64} {st : SignalStore}
    (hread : m.signals.read? ⟨(i + n - 1) % n⟩ = some v)
    (hwrite : m.signals.write ⟨i⟩ (v + 1) = .ok st) :
    (ringStep n i).run cycle m = (.ok (), ⟨m.memory, st⟩) := by
  have hbehavior : (ringStep n i : Step μ).behavior = Behavior.ofRoutine fun _ _ => (do
      let value ← Routine.read ⟨(i + n - 1) % n⟩
      Routine.write ⟨i⟩ (value + 1)) := rfl
  have hrun : ((ringStep n i).behavior (ringBlock n i) cycle m.memory).run m.signals =
      ((.ok (), m.memory), st) := by
    rw [hbehavior]
    refine Behavior.run_ofRoutine ?_ m.memory
    exact (Routine.run_bind_of_ok (Routine.run_of_read? hread)).trans (Routine.run_of_write hwrite)
  unfold Step.run
  rw [show (ringStep n i : Step μ).block = ringBlock n i from rfl, hrun]

/-- The scheduled steps of a ring. -/
theorem Ring.stepsOf_order {d : Design μ} (hd : d.Ring n) :
    Tick.stepsOf d.hierarchy.block? ((List.range n).map (ringBlock n)) =
      (List.range n).map (ringStep n) := by
  unfold Tick.stepsOf
  rw [List.filterMap_map, ← List.filterMap_eq_map]
  refine List.filterMap_congr fun i hi => ?_
  rw [Function.comp_apply, Function.comp_apply, hd.block?_ringBlock (List.mem_range.1 hi)]
  rfl

/-! ## One cycle -/

/-- The store of a ring after `k` cycles and the first `j` incrementers of the next cycle. -/
structure RingStore (n : Nat) (nets : NetMap) (k j : Nat) (st : SignalStore) : Prop where
  reset : st.reset = SignalStore.ofNets nets
  read? : ∀ i < n, st.read? ⟨i⟩ = some (ringValue n i (if i < j then k + 1 else k))

theorem RingStore.next_cycle {nets : NetMap} {k : Nat} {st : SignalStore}
    (h : RingStore n nets k n st) : RingStore n nets (k + 1) 0 st := by
  refine ⟨h.reset, fun i hi => ?_⟩
  rw [h.read? i hi, if_pos hi, if_neg (Nat.not_lt_zero i)]

section

variable {d : Design μ} (hd : d.Ring n) {x : Extraction} {nets : NetMap}
  (hnets : Resolves d.signals d.connections x nets)

include hd hnets

/-- No net of a ring is driven by a constant. -/
theorem Ring.driver_ne_const (m : NetId) (a : SignalId) (v : UInt64) :
    nets.driver m ≠ some (.const a v) := fun h =>
  hd.not_isConst a v (hnets.driven.const.1 h).2.1

theorem Ring.ringStore_ofNets : RingStore n nets 0 0 (SignalStore.ofNets nets) := by
  refine ⟨SignalStore.reset_ofNets nets, fun i hi => ?_⟩
  obtain ⟨m, hm⟩ := hd.exists_net? hnets hi
  rw [SignalStore.read?_eq, SignalStore.net?_of_netOf rfl, hm, Option.bind_some,
    SignalStore.cell_ofNets (hnets.index_lt_size hm), Option.map_some, if_neg (Nat.not_lt_zero i)]
  cases hdriver : nets.driver m with
  | none => rfl
  | some driver =>
    cases driver with
    | block => rfl
    | const a v => exact absurd hdriver (hd.driver_ne_const hnets m a v)

/-- A write to a signal of a ring succeeds, and is seen through this signal only. -/
theorem Ring.exists_write {st : SignalStore} (hst : st.reset = SignalStore.ofNets nets) {j : Nat}
    (hj : j < n) (v : UInt64) : ∃ st', st.write ⟨j⟩ v = .ok st' ∧
      ∀ i < n, st'.read? ⟨i⟩ = if i = j then some v else st.read? ⟨i⟩ := by
  obtain ⟨hnone, -⟩ | ⟨⟨m, a, c, -, hconst⟩, -⟩ | ⟨-, -, st', hwrite⟩ :=
    SignalStore.write_outcome hnets hst ⟨j⟩ v
  · obtain ⟨m, hm⟩ := hd.exists_net? hnets hj
    rw [hnone] at hm
    cases hm
  · exact absurd hconst (hd.driver_ne_const hnets m a c)
  · refine ⟨st', hwrite, fun i hi => ?_⟩
    have hnet : ∀ s, st.net? s = nets.net? s :=
      SignalStore.net?_of_netOf (congrArg SignalStore.netOf hst)
    obtain ⟨m, hm⟩ := hd.exists_net? hnets hi
    rw [SignalStore.read?_of_write_eq_ite hwrite ((hnet _).trans hm), hnet]
    have hsame : nets.net? ⟨j⟩ = some m ↔ i = j := by
      rw [← hm, hd.net?_eq_iff hnets hj hi, SignalId.mk.injEq, eq_comm]
    simp only [hsame]

/-- The next incrementer brings its signal to the next value. -/
theorem RingStore.step {k j : Nat} {m : Machine μ SignalStore}
    (hm : RingStore n nets k j m.signals) (hj : j < n) (cycle : Nat) :
    ∃ st, (ringStep n j).run cycle m = (.ok (), ⟨m.memory, st⟩) ∧ RingStore n nets k (j + 1) st := by
  obtain ⟨v, hread, hv⟩ : ∃ v, m.signals.read? ⟨(j + n - 1) % n⟩ = some v ∧
      v + 1 = ringValue n j (k + 1) := by
    rw [ring_source hj]
    by_cases hzero : j = 0
    · subst hzero
      refine ⟨_, hm.read? (n - 1) (by omega), ?_⟩
      exact ringValue_wrap hj
    · obtain ⟨i, rfl⟩ : ∃ i, j = i + 1 := ⟨j - 1, by omega⟩
      refine ⟨_, hm.read? i (by omega), ?_⟩
      rw [if_pos (Nat.lt_succ_self i)]
      exact ringValue_succ
  obtain ⟨st, hwrite, hreads⟩ := hd.exists_write hnets hm.reset hj (v + 1)
  refine ⟨st, run_ringStep hread hwrite, (SignalStore.reset_of_write hwrite).trans hm.reset,
    fun i hi => ?_⟩
  rw [hreads i hi, hm.read? i hi, hv]
  by_cases hij : i = j
  · rw [if_pos hij, if_pos (by omega), hij]
  · have hlt : i < j + 1 ↔ i < j := by omega
    simp only [if_neg hij, hlt]

/-- In a cycle all incrementers succeed. -/
theorem RingStore.runAll {k : Nat} {m : Machine μ SignalStore}
    (hm : RingStore n nets k 0 m.signals) (cycle : Nat) {j : Nat} (hj : j ≤ n) :
    ∃ st, Step.runAll cycle ((List.range j).map (ringStep n)) m = (.ok (), ⟨m.memory, st⟩) ∧
      RingStore n nets k j st := by
  induction j with
  | zero => exact ⟨m.signals, rfl, hm⟩
  | succ j ih =>
    obtain ⟨st, hrun, hst⟩ := ih (by omega)
    obtain ⟨st', hstep, hst'⟩ := RingStore.step hd hnets (m := ⟨m.memory, st⟩) hst hj cycle
    refine ⟨st', ?_, hst'⟩
    rw [List.range_succ, List.map_append, Step.runAll_append, hrun]
    simp only [List.map_cons, List.map_nil, Step.runAll, hstep]

end

end Design

/-! ## All cycles -/

namespace Simulator

variable {μ : Type} {n : Nat}

/-- A simulator of a ring that has completed `k` cycles since it was made. -/
structure RingState (n k : Nat) (s : Simulator μ) : Prop where
  ring : s.design.Ring n
  stages : s.design.Stages s.config s.elaboration
  running : s.halted = false
  revision : s.tickProcedure.revision = s.design.revision
  steps : s.tickProcedure.procedure.steps = (List.range n).map (Design.ringStep n)
  store : Design.RingStore n s.elaboration.nets k 0 s.store

/-- One more cycle is completed. -/
theorem RingState.tick {s : Simulator μ} {k : Nat} (hs : s.RingState n k) :
    ∃ s', s.tick = (.ok (), s') ∧ s'.RingState n (k + 1) := by
  obtain ⟨st, hrun, hst⟩ := hs.store.runAll hs.ring hs.stages.resolves (m := ⟨s.memory, s.store⟩)
    s.cycle (Nat.le_refl n)
  rw [← hs.steps] at hrun
  exact ⟨_, tick_eq_runAll hs.running hs.revision hrun,
    hs.ring, hs.stages, hs.running, hs.revision, hs.steps, hst.next_cycle⟩

theorem RingState.ticks {s : Simulator μ} {k : Nat} (hs : s.RingState n k) (m : Nat) :
    ∃ s', s.ticks m = (.ok (), s') ∧ s'.RingState n (k + m) := by
  induction m generalizing s k with
  | zero => exact ⟨s, rfl, hs⟩
  | succ m ih =>
    obtain ⟨s₁, htick, hs₁⟩ := hs.tick
    obtain ⟨s', hticks, hs'⟩ := ih hs₁
    refine ⟨s', ?_, ?_⟩
    · rw [Simulator.ticks, htick]
      exact hticks
    · rwa [Nat.add_assoc, Nat.add_comm 1 m] at hs'

/-- A signal is found under its name and reads its value. -/
theorem RingState.peekPath {s : Simulator μ} {k : Nat} (hs : s.RingState n k) {i : Nat}
    (hi : i < n) : s.peekPath s!"top.r{i}" = some (Design.ringValue n i k) := by
  have hlookup : s.design.signals.lookup? s!"top.r{i}" = some ⟨i⟩ :=
    hs.ring.built.parts.2.lookup?_eq_some_iff.2 ⟨Design.ringWire i, hs.ring.get? i hi, rfl⟩
  unfold Simulator.peekPath
  rw [hlookup, Option.bind_some]
  exact hs.store.read? i hi

/-- A ring with an incrementer can be run. -/
theorem exists_ringState {d : Design μ} (hd : d.Ring n) (hn : 0 < n) {config : SimConfig}
    (hconfig : config.validate = .ok ()) (memory : μ) :
    ∃ s, Simulator.new d config memory = .ok s ∧ Design.RingSchedule n s.elaboration ∧
      s.RingState n 0 := by
  obtain ⟨e, helaborate, hschedule⟩ := hd.exists_elaborate hconfig
  have hstages := Design.elaborate_eq_ok helaborate
  have hlive : ∀ b ∈ e.schedule.order, (d.hierarchy.block? b).isSome := fun b =>
    (hstages.mem_order hd.built).1
  have hne : e.schedule.order ≠ [] := by
    rw [hschedule.order, ne_eq, List.map_eq_nil_iff, List.range_eq_nil]
    omega
  obtain ⟨tick, htick⟩ := Tick.exists_generate hlive hne config.mode e.revision
  obtain ⟨hrevision, hsteps, -⟩ := Tick.generate_eq_ok htick
  have hnew : Simulator.new d config memory = .ok {
      design := d, config, elaboration := e, tickProcedure := tick, memory
      store := SignalStore.ofNets e.nets
      cycle := 0
      halted := false
      lastTick := ⟨0, 0⟩ } := by
    simp only [Simulator.new, Design.compile, bind, Except.bind, helaborate, htick]
    rfl
  refine ⟨_, hnew, hschedule, hd, hstages, rfl, hrevision.trans hstages.revision, ?_,
    hd.ringStore_ofNets hstages.resolves⟩
  show tick.procedure.steps = _
  rw [hsteps, hschedule.order]
  exact hd.stepsOf_order

/-- **A ring counts.**  The signals of a ring have numbers up to the capacity of the table, and the
first one without a number is refused.  Below the capacity a ring can be run under all valid
settings, in both modes: the incrementers are scheduled one after the other, each in a batch of its
own, and the only sequential edge is the one that closes the ring, which needs two incrementers.  In
every cycle each signal grows by the number of signals, and after the first cycle signal `i` is
`i + 1`.

A ring that fills the table is built, but nothing is said about running it: nets count their elements
in 32 bits, in which `SignalTable.capacity` is zero. -/
theorem ring_counts (hn : 0 < n) (config : SimConfig) (hconfig : config.validate = .ok ())
    (memory : μ) :
    (SignalTable.capacity < n →
      ((Design.new "top").applyAll (Design.ringEdits n : List (Edit μ))).refusal =
        some (.signal .tableFull)) ∧
    (n ≤ SignalTable.capacity →
      ((Design.new "top").applyAll (Design.ringEdits n : List (Edit μ))).refusal = none) ∧
    (n < SignalTable.capacity →
      ∃ s, Simulator.new (Design.ringProfile n) config memory = .ok s ∧
        Design.RingSchedule n s.elaboration ∧
        ∀ k, 0 < k → ∃ s', s.ticks k = (.ok (), s') ∧ ∀ i < n,
          (s'.peekPath s!"top.r{i}").map UInt64.toNat =
            some (((k - 1) * n + i + 1) % 2 ^ 64)) := by
  refine ⟨Design.refusal_of_capacity_lt, fun hcapacity => ?_, fun hcapacity => ?_⟩
  · obtain ⟨d, haccepts, -⟩ := Design.exists_ring (μ := μ) hcapacity
    exact haccepts.applyAll.1
  · obtain ⟨s, hnew, hschedule, hs⟩ :=
      exists_ringState (Design.ring_ringProfile (Nat.le_of_lt hcapacity)) hn hconfig memory
    refine ⟨s, hnew, hschedule, fun k hk => ?_⟩
    obtain ⟨s', hticks, hs'⟩ := hs.ticks k
    refine ⟨s', hticks, fun i hi => ?_⟩
    obtain ⟨c, rfl⟩ : ∃ c, k = c + 1 := ⟨k - 1, by omega⟩
    rw [hs'.peekPath hi, Option.map_some, Nat.zero_add, Nat.add_sub_cancel]
    exact congrArg some (UInt64.toNat_ofNat' ..)

/-- Three incrementers count to six in two cycles. -/
theorem ring_three_counts : 0 < 3 ∧ ({ mode := .unrolled } : SimConfig).validate = .ok () ∧
    ∃ s s' : Simulator Unit,
      Simulator.new (Design.ringProfile 3) { mode := .unrolled } () = .ok s ∧
        s.ticks 2 = (.ok (), s') ∧ (s'.peekPath "top.r2").map UInt64.toNat = some 6 := by
  refine ⟨by decide, rfl, ?_⟩
  obtain ⟨-, -, hring⟩ :=
    ring_counts (n := 3) (by decide) { mode := .unrolled } rfl ()
  obtain ⟨s, hnew, -, hcounts⟩ := hring (by decide)
  obtain ⟨s', hticks, hpeek⟩ := hcounts 2 (by decide)
  exact ⟨s, s', hnew, hticks, hpeek 2 (by decide)⟩

end Simulator

end Cyclewise
