import Cyclewise.Block.Stock
import Cyclewise.Proofs.Block.Scan
import Cyclewise.Proofs.Block.Trace

/-!
# Confined and memoryless behaviors

A behavior is confined to access sets if it reads and writes signals of these sets only.  It is
memoryless if the memory has no part in what it does to a store.  Ready-made blocks of one
assignment are both (`memoryless_ofAssignment`, `confined_ofAssignment`).
-/

namespace Cyclewise

namespace Program

variable {α β : Type} {reads writes : SignalId → Prop}

/-- Whatever a program is told, it reads and writes only some signals. -/
def Confined (reads writes : SignalId → Prop) : Program α → Prop
  | done _ => True
  | read s next => reads s ∧ ∀ found, (next found).Confined reads writes
  | write s _ next => writes s ∧ ∀ accepted, (next accepted).Confined reads writes

theorem Confined.within {p : Program α} (h : p.Confined reads writes) (st : SignalStore) :
    ∀ ev ∈ p.trace st, ev.Within reads writes := by
  induction p generalizing st with
  | done =>
    intro ev hev
    cases hev
  | read s next ih =>
    intro ev hev
    rw [trace] at hev
    rcases List.mem_cons.1 hev with rfl | hev
    · exact h.1
    · exact ih _ (h.2 _) st ev hev
  | write s value next ih =>
    intro ev hev
    cases hw : SignalState.write st s value with
    | ok st' =>
      rw [(run_write_ok next hw).2] at hev
      rcases List.mem_cons.1 hev with rfl | hev
      · exact h.1
      · exact ih _ (h.2 _) st' ev hev
    | error e =>
      rw [(run_write_error next hw).2] at hev
      rcases List.mem_cons.1 hev with rfl | hev
      · exact h.1
      · exact ih _ (h.2 _) st ev hev

theorem Confined.bind {p : Program α} (h : p.Confined reads writes) {f : α → Program β}
    (hf : ∀ x, (f x).Confined reads writes) : (p.bind f).Confined reads writes := by
  induction p with
  | done x => exact hf x
  | read s next ih => exact ⟨h.1, fun found => ih found (h.2 found)⟩
  | write s value next ih => exact ⟨h.1, fun accepted => ih accepted (h.2 accepted)⟩

theorem run_bind (p : Program α) (f : α → Program β) (st : SignalStore) :
    (p.bind f).run st = (f (p.run st).1).run (p.run st).2 := by
  induction p generalizing st with
  | done => rfl
  | read s next ih =>
    rw [bind, run_read, run_read]
    exact ih _ st
  | write s value next ih =>
    cases hw : SignalState.write st s value with
    | ok st' =>
      rw [bind, (run_write_ok _ hw).1, (run_write_ok _ hw).1]
      exact ih _ st'
    | error e =>
      rw [bind, (run_write_error _ hw).1, (run_write_error _ hw).1]
      exact ih _ st

end Program

namespace Behavior

variable {μ : Type}

/-- On every store, a block reads and writes signals of its access sets only. -/
def Confined (f : Behavior μ) (b : BlockId) (access : BlockAccess) : Prop :=
  ∀ cycle memory (st : SignalStore), ∀ ev ∈ (f b cycle memory).trace st,
    ev.Within (· ∈ access.reads) (· ∈ access.writes)

/-- The outcome and the store afterwards do not depend on the memory. -/
def Memoryless (f : Behavior μ) (b : BlockId) : Prop :=
  ∀ cycle memory memory' (st : SignalStore),
    ((f b cycle memory').run st).1.1 = ((f b cycle memory).run st).1.1 ∧
      ((f b cycle memory').run st).2 = ((f b cycle memory).run st).2

theorem memoryless_ofRoutine (f : BlockId → Nat → Routine Unit) (b : BlockId) :
    (ofRoutine f : Behavior μ).Memoryless b := by
  intro cycle memory memory' st
  unfold ofRoutine
  rw [Program.run_bind, Program.run_bind]
  exact ⟨rfl, rfl⟩

end Behavior

/-! ## Ready-made blocks -/

namespace UpdateBlock

variable {μ : Type} {name : String} {src dst s : SignalId} {b : BlockId} {a : BlockAnalysis}

theorem memoryless_ofAssignment {value : Expr} {line : Nat} {routine : Routine Unit} :
    (ofAssignment name dst value line routine : UpdateBlock μ).behavior.Memoryless b :=
  Behavior.memoryless_ofRoutine _ b

/-- A block of one assignment reads what the value reads and writes what is assigned. -/
theorem mem_access_ofAssignment {value : Expr} {line : Nat} {routine : Routine Unit}
    (ha : (ofAssignment name dst value line routine : UpdateBlock μ).analyze = .ok a) :
    (∀ s, s ∈ a.access.reads ↔ s ∈ value.reads ∅) ∧ ∀ s, s ∈ a.access.writes ↔ s = dst := by
  have hempty : ∀ s, s ∉ Scan.empty.access.reads ∧ s ∉ Scan.empty.access.writes := fun s =>
    ⟨SignalSet.not_mem_empty s, SignalSet.not_mem_empty s⟩
  obtain ⟨haccess, -⟩ := analyze_eq_ok ha
  rw [haccess]
  refine ⟨fun s => ?_, fun s => ?_⟩
  · simp only [ofAssignment, Stmt.set, Scan.ofBody, Scan.stmts, Scan.stmt, Scan.record, Access.one,
      Access.indexReads, List.foldl_cons, List.foldl_nil, SignalSet.mem_union,
      SignalSet.not_mem_empty, hempty, or_false, false_or]
    rfl
  · simp only [ofAssignment, Stmt.set, Scan.ofBody, Scan.stmts, Scan.stmt, Scan.record, Access.one,
      Access.targets, List.flatMap_cons, List.flatMap_nil, List.append_nil, SignalSet.mem_union,
      SignalSet.mem_ofList, List.mem_singleton, hempty, false_or]

/-- A block of one assignment is confined if its routine reads what the value reads and writes what
is assigned. -/
theorem confined_ofAssignment {value : Expr} {line : Nat} {routine : Routine Unit}
    (ha : (ofAssignment name dst value line routine : UpdateBlock μ).analyze = .ok a)
    (h : routine.run.Confined (· ∈ value.reads ∅) (· = dst)) :
    (ofAssignment name dst value line routine : UpdateBlock μ).behavior.Confined b a.access := by
  obtain ⟨hreads, hwrites⟩ := mem_access_ofAssignment ha
  intro cycle memory st ev hev
  have hwithin := Program.Confined.within
    (h.bind (f := fun outcome => .done (outcome, memory)) fun _ => trivial) st ev hev
  cases ev with
  | read s found => exact (hreads s).2 hwithin
  | write s v accepted => exact (hwrites s).2 hwithin

theorem confined_copy (ha : (copy name src dst : UpdateBlock μ).analyze = .ok a) :
    (copy name src dst : UpdateBlock μ).behavior.Confined b a.access := by
  refine confined_ofAssignment ha ⟨?_, fun found => ?_⟩
  · simp [Expr.read, Expr.reads]
  · cases found with
    | error e => trivial
    | ok value => exact ⟨rfl, fun _ => trivial⟩

theorem confined_increment (ha : (increment name s : UpdateBlock μ).analyze = .ok a) :
    (increment name s : UpdateBlock μ).behavior.Confined b a.access := by
  refine confined_ofAssignment ha ⟨?_, fun found => ?_⟩
  · simp [Expr.read, Expr.reads]
  · cases found with
    | error e => trivial
    | ok value => exact ⟨rfl, fun _ => trivial⟩

end UpdateBlock

end Cyclewise
