import Cyclewise.Proofs.Store

/-!
# Traces of programs

The trace of a program on a state lists its reads and writes with their outcomes.  What a run leaves
in a store are the writes of the trace (`run_replay`).  It leaves a net alone that none of them goes
to (`run_frame`), and all it does depends on the nets of its trace (`run_agree`).
-/

namespace Cyclewise

/-- A read or a write of a signal, with its outcome. -/
inductive Event where
  /-- A read finds a value, unless the signal is unknown. -/
  | read (signal : SignalId) (found : Option UInt64)
  | write (signal : SignalId) (value : UInt64) (accepted : Bool)
deriving DecidableEq

namespace Event

/-- The signal that is read or written. -/
def signal : Event → SignalId
  | read s _ => s
  | write s _ _ => s

/-- Reads go to the first set of signals, writes to the second one. -/
def Within (reads writes : SignalId → Prop) : Event → Prop
  | read s _ => reads s
  | write s _ _ => writes s

end Event

namespace SignalStore

/-- The store after an event: a write that is refused changes nothing, and neither does a read. -/
def enact (st : SignalStore) : Event → SignalStore
  | .read _ _ => st
  | .write a v _ =>
    match st.write a v with
    | .ok st' => st'
    | .error _ => st

/-- The store after the writes of some events, in order. -/
def replay (st : SignalStore) (events : List Event) : SignalStore := events.foldl enact st

theorem replay_append (st : SignalStore) (xs ys : List Event) :
    st.replay (xs ++ ys) = (st.replay xs).replay ys :=
  List.foldl_append

end SignalStore

namespace Program

variable {α : Type}

/-- What a program is told of a read. -/
def answer (s : SignalId) : Option UInt64 → Except BlockError UInt64
  | some value => .ok value
  | none => .error (.unknownSignal s)

/-- The reads and writes of a run. -/
def trace {σ : Type} [SignalState σ] : Program α → σ → List Event
  | done _, _ => []
  | read s next, state =>
    let found := SignalState.read? state s
    .read s found :: (next (answer s found)).trace state
  | write s value next, state =>
    match SignalState.write state s value with
    | .ok state' => .write s value true :: (next (.ok ())).trace state'
    | .error e => .write s value false :: (next (.error e)).trace state

theorem run_read {σ : Type} [SignalState σ] (s : SignalId)
    (next : Except BlockError UInt64 → Program α) (state : σ) :
    (read s next).run state = (next (answer s (SignalState.read? state s))).run state := by
  rw [run]
  split
  · next value hvalue => rw [hvalue, answer]
  · next hnone => rw [hnone, answer]

theorem run_write_ok {σ : Type} [SignalState σ] {s : SignalId} {value : UInt64}
    (next : Except BlockError Unit → Program α) {state state' : σ}
    (h : SignalState.write state s value = .ok state') :
    (write s value next).run state = (next (.ok ())).run state' ∧
      (write s value next).trace state =
        .write s value true :: (next (.ok ())).trace state' := by
  rw [run, trace, h]
  exact ⟨rfl, rfl⟩

theorem run_write_error {σ : Type} [SignalState σ] {s : SignalId} {value : UInt64}
    (next : Except BlockError Unit → Program α) {state : σ} {e : BlockError}
    (h : SignalState.write state s value = .error e) :
    (write s value next).run state = (next (.error e)).run state ∧
      (write s value next).trace state =
        .write s value false :: (next (.error e)).trace state := by
  rw [run, trace, h]
  exact ⟨rfl, rfl⟩

/-! ## Runs on stores -/

section

variable {st st' : SignalStore} {n : NetId}

/-- No write of a trace goes to the net. -/
def Avoids (st : SignalStore) (n : NetId) (events : List Event) : Prop :=
  ∀ a v r, Event.write a v r ∈ events → st.net? a ≠ some n

theorem Avoids.tail {ev : Event} {events : List Event} (h : Avoids st n (ev :: events)) :
    Avoids st n events :=
  fun a v r hmem => h a v r (List.mem_cons_of_mem _ hmem)

theorem Avoids.congr {events : List Event} (h : Avoids st n events) (hnet : st'.netOf = st.netOf) :
    Avoids st' n events := by
  intro a v r hmem
  rw [SignalStore.net?_congr hnet]
  exact h a v r hmem

/-- A run writes to the store, and that is all. -/
theorem run_updates (p : Program α) (st : SignalStore) : st.Updates (p.run st).2 := by
  induction p generalizing st with
  | done => exact .refl
  | read s next ih =>
    rw [run_read]
    exact ih _ st
  | write s value next ih =>
    cases hw : SignalState.write st s value with
    | ok st' =>
      rw [(run_write_ok next hw).1]
      exact (SignalStore.updates_write hw).trans (ih _ st')
    | error e =>
      rw [(run_write_error next hw).1]
      exact ih _ st

/-- What a run leaves in the store are the writes of its trace, one after the other. -/
theorem run_replay (p : Program α) (st : SignalStore) : (p.run st).2 = st.replay (p.trace st) := by
  induction p generalizing st with
  | done => rfl
  | read s next ih =>
    rw [run_read]
    exact ih _ st
  | write s value next ih =>
    cases hw : SignalState.write st s value with
    | ok st' =>
      obtain ⟨hrun, htrace⟩ := run_write_ok next hw
      have henact : st.enact (.write s value true) = st' := by
        rw [SignalStore.enact, show st.write s value = .ok st' from hw]
      rw [hrun, htrace, SignalStore.replay, List.foldl_cons, henact]
      exact ih _ st'
    | error e =>
      obtain ⟨hrun, htrace⟩ := run_write_error next hw
      have henact : st.enact (.write s value false) = st := by
        rw [SignalStore.enact, show st.write s value = .error e from hw]
      rw [hrun, htrace, SignalStore.replay, List.foldl_cons, henact]
      exact ih _ st

/-- A run leaves a net alone that no write goes to, and all its reads of the net see the same
value. -/
theorem run_frame (p : Program α) (st : SignalStore) (h : Avoids st n (p.trace st)) :
    (p.run st).2.cell n = st.cell n ∧
      ∀ a r, Event.read a r ∈ p.trace st → st.net? a = some n → r = st.read? a := by
  induction p generalizing st with
  | done =>
    refine ⟨rfl, fun a r hr => ?_⟩
    cases hr
  | read s next ih =>
    rw [trace] at h ⊢
    rw [run_read]
    obtain ⟨hcell, hreads⟩ := ih _ st h.tail
    refine ⟨hcell, fun a r hr ha => ?_⟩
    rcases List.mem_cons.1 hr with heq | hr
    · obtain ⟨rfl, rfl⟩ := Event.read.inj heq
      rfl
    · exact hreads a r hr ha
  | write s value next ih =>
    cases hw : SignalState.write st s value with
    | ok st' =>
      obtain ⟨hrun, htrace⟩ := run_write_ok next hw
      have hw' : st.write s value = .ok st' := hw
      have hnet := SignalStore.net?_congr (SignalStore.netOf_of_write hw')
      rw [htrace] at h ⊢
      rw [hrun]
      have hs : st.net? s ≠ some n := h s value _ List.mem_cons_self
      have hsame : st'.cell n = st.cell n := by
        rw [SignalStore.cell_of_write hw', if_neg hs]
      obtain ⟨hcell, hreads⟩ := ih _ st' (h.tail.congr (SignalStore.netOf_of_write hw'))
      refine ⟨hcell.trans hsame, fun a r hr ha => ?_⟩
      rcases List.mem_cons.1 hr with heq | hr
      · cases heq
      · refine (hreads a r hr ((hnet a).trans ha)).trans ?_
        refine SignalStore.read?_congr (SignalStore.netOf_of_write hw') fun m hm => ?_
        obtain rfl : m = n := Option.some.inj (hm.symm.trans ha)
        exact hsame
    | error e =>
      obtain ⟨hrun, htrace⟩ := run_write_error next hw
      rw [htrace] at h ⊢
      rw [hrun]
      obtain ⟨hcell, hreads⟩ := ih _ st h.tail
      refine ⟨hcell, fun a r hr ha => ?_⟩
      rcases List.mem_cons.1 hr with heq | hr
      · cases heq
      · exact hreads a r hr ha

/-- Stores that agree on the nets of a trace have runs with one trace and one result, and still
agree afterwards. -/
theorem run_agree {N : NetId → Prop} (p : Program α) {st st' : SignalStore}
    (h : st.AgreeOn N st') (hp : ∀ ev ∈ p.trace st, ∀ n, st.net? ev.signal = some n → N n) :
    p.trace st' = p.trace st ∧ (p.run st').1 = (p.run st).1 ∧
      (p.run st).2.AgreeOn N (p.run st').2 := by
  induction p generalizing st st' with
  | done => exact ⟨rfl, rfl, h⟩
  | read s next ih =>
    rw [trace] at hp
    have hread : SignalState.read? st' s = SignalState.read? st s :=
      SignalStore.read?_congr h.netOf_eq fun n hn => h.cell_eq n (hp _ List.mem_cons_self n hn)
    obtain ⟨htrace, hresult, hagree⟩ := ih _ h fun ev hev =>
      hp ev (List.mem_cons_of_mem _ hev)
    rw [run_read, run_read, trace, trace, hread]
    exact ⟨by rw [htrace], hresult, hagree⟩
  | write s value next ih =>
    have hs : ∀ n, st.net? s = some n → N n := by
      intro n hn
      cases hw : SignalState.write st s value with
      | ok u =>
        rw [(run_write_ok next hw).2] at hp
        exact hp _ List.mem_cons_self n hn
      | error e =>
        rw [(run_write_error next hw).2] at hp
        exact hp _ List.mem_cons_self n hn
    rcases h.write hs value with ⟨u, u', hw, hw', hagree⟩ | ⟨e, hw, hw'⟩
    · have hwrite : SignalState.write st s value = .ok u := hw
      have hwrite' : SignalState.write st' s value = .ok u' := hw'
      obtain ⟨hrun, htrace⟩ := run_write_ok next hwrite
      obtain ⟨hrun', htrace'⟩ := run_write_ok next hwrite'
      rw [htrace] at hp
      have hnet := SignalStore.net?_congr (SignalStore.netOf_of_write hw)
      obtain ⟨hsame, hresult, hfinal⟩ := ih _ hagree fun ev hev n hn =>
        hp ev (List.mem_cons_of_mem _ hev) n ((hnet _).symm.trans hn)
      rw [hrun, hrun', htrace, htrace', hsame]
      exact ⟨rfl, hresult, hfinal⟩
    · have hwrite : SignalState.write st s value = .error e := hw
      have hwrite' : SignalState.write st' s value = .error e := hw'
      obtain ⟨hrun, htrace⟩ := run_write_error next hwrite
      obtain ⟨hrun', htrace'⟩ := run_write_error next hwrite'
      rw [htrace] at hp
      obtain ⟨hsame, hresult, hfinal⟩ := ih _ h fun ev hev =>
        hp ev (List.mem_cons_of_mem _ hev)
      rw [hrun, hrun', htrace, htrace', hsame]
      exact ⟨rfl, hresult, hfinal⟩

end

end Program

end Cyclewise
