import Cyclewise.Proofs.Block.Meaning
import Cyclewise.Proofs.Block.Scan
import Mathlib.Logic.Relation

/-!
# Soundness of the dependency analysis

The dependencies of an analysed body bound the flow of information through it, whatever its
operators mean: what a body leaves in a signal is determined by the initial values of the signals
from which chains of dependencies lead to it, and signals outside the write set keep their values
(`run_noninterference`).

Fix a set `D` of signals that is closed under the dependencies: with a written signal it contains
every signal that the written one depends on.  Two valuations `Agree` when they have the same
values on `D` and on the locals whose taint lies in `D`.  Executing a statement keeps agreement
(`exec_agree`); under a guard that reads a signal outside `D` it does not even change anything
that agreement looks at (`exec_inert`), so it does not matter which arm of a conditional runs.
-/

namespace Cyclewise

variable {V μ : Type}

/-! ## Agreement -/

namespace Valuation

/-- The same values on `D`, and on the locals whose taint lies in `D`. -/
structure Agree (D : SignalId → Prop) (τ : Taints) (v v' : Valuation V) : Prop where
  signals : ∀ s, D s → v.signals s = v'.signals s
  locals : ∀ name, τ.Within D name → v.locals name = v'.locals name

variable {D : SignalId → Prop} {τ τ' : Taints} {v v' v'' : Valuation V}

theorem Agree.refl (D : SignalId → Prop) (τ : Taints) (v : Valuation V) : Agree D τ v v :=
  ⟨fun _ _ => rfl, fun _ _ => rfl⟩

theorem Agree.symm (h : Agree D τ v v') : Agree D τ v' v :=
  ⟨fun s hs => (h.signals s hs).symm, fun name hn => (h.locals name hn).symm⟩

theorem Agree.trans (h : Agree D τ v v') (h' : Agree D τ v' v'') : Agree D τ v v'' :=
  ⟨fun s hs => (h.signals s hs).trans (h'.signals s hs),
    fun name hn => (h.locals name hn).trans (h'.locals name hn)⟩

/-- With larger taints there are fewer locals to agree on. -/
theorem Agree.mono (hle : τ.Le τ') (h : Agree D τ v v') : Agree D τ' v v' :=
  ⟨h.signals, fun name hn => h.locals name (hn.mono hle)⟩

end Valuation

namespace Meaning

variable (m : Meaning V) {D : SignalId → Prop} {τ : Taints} {v v' : Valuation V}

theorem fetch_congr (h : v.Agree D τ v') {targets : List SignalId} (ht : ∀ s ∈ targets, D s)
    (index : Option V) :
    m.fetch targets index (targets.map v.signals) =
      m.fetch targets index (targets.map v'.signals) := by
  rw [List.map_congr_left fun s hs => h.signals s (ht s hs)]

/-- An expression that reads from `D` only has one value where valuations agree. -/
theorem eval_congr (h : v.Agree D τ v') :
    ∀ e : Expr, (∀ s ∈ e.reads τ, D s) → m.eval v e = m.eval v' e
  | .const _, _ => rfl
  | .call _ _, _ => rfl
  | .localVar name, hr => by
    rw [eval, eval, h.locals name hr]
  | .signal targets, hr => by
    rw [eval, eval]
    exact m.fetch_congr h (fun s hs => hr s (SignalSet.mem_ofList.2 hs)) none
  | .element targets index, hr => by
    simp only [Expr.reads, SignalSet.mem_union, SignalSet.mem_ofList] at hr
    rw [eval, eval, eval_congr h index fun s hs => hr s (.inr hs)]
    exact m.fetch_congr h (fun s hs => hr s (.inl hs)) _
  | .unary op operand, hr => by
    rw [eval, eval, eval_congr h operand hr]
  | .binary op lhs rhs, hr => by
    simp only [Expr.reads, SignalSet.mem_union] at hr
    rw [eval, eval, eval_congr h lhs fun s hs => hr s (.inl hs),
      eval_congr h rhs fun s hs => hr s (.inr hs)]
  | .compare op lhs rhs, hr => by
    simp only [Expr.reads, SignalSet.mem_union] at hr
    rw [eval, eval, eval_congr h lhs fun s hs => hr s (.inl hs),
      eval_congr h rhs fun s hs => hr s (.inr hs)]
  | .cond test thenExpr elseExpr, hr => by
    simp only [Expr.reads, SignalSet.mem_union] at hr
    rw [eval, eval, eval_congr h test fun s hs => hr s (.inl hs),
      eval_congr h thenExpr fun s hs => hr s (.inr (.inl hs)),
      eval_congr h elseExpr fun s hs => hr s (.inr (.inr hs))]

theorem updated_subset (v : Valuation V) (t : Access) : ∀ s ∈ m.updated v t, s ∈ t.targets := by
  intro s hs
  cases t with
  | direct targets => exact hs
  | element targets index => exact (List.mem_filter.1 hs).1

theorem updated_congr (h : v.Agree D τ v') {t : Access} (hr : ∀ s ∈ t.indexReads τ, D s) :
    m.updated v t = m.updated v' t := by
  cases t with
  | direct targets => rfl
  | element targets index => rw [updated, updated, m.eval_congr h index hr]

theorem current_congr (h : v.Agree D τ v') {t : Access} (ht : ∀ s ∈ t.targets, D s)
    (hr : ∀ s ∈ t.indexReads τ, D s) : m.current v t = m.current v' t := by
  cases t with
  | direct targets => exact m.fetch_congr h ht none
  | element targets index =>
    rw [current, current, m.eval_congr h index hr]
    exact m.fetch_congr h ht _

theorem put_signals_of_not_mem (x : V) (v : Valuation V) {t : Access} {s : SignalId}
    (hs : s ∉ t.targets) : (m.put x v t).signals s = v.signals s :=
  if_neg fun h => hs (m.updated_subset v t s h)

/-- Writes outside `D` keep a valuation as it was. -/
theorem put_inert (x : V) (v : Valuation V) {t : Access} (ht : ∀ s ∈ t.targets, ¬ D s) :
    (m.put x v t).Agree D τ v :=
  ⟨fun s hs => m.put_signals_of_not_mem x v fun hmem => ht s hmem hs, fun _ _ => rfl⟩

theorem put_agree (h : v.Agree D τ v') {t : Access} (hr : ∀ s ∈ t.indexReads τ, D s) (x : V) :
    (m.put x v t).Agree D τ (m.put x v' t) := by
  refine ⟨fun s hs => ?_, h.locals⟩
  show (if s ∈ m.updated v t then x else v.signals s) =
    if s ∈ m.updated v' t then x else v'.signals s
  rw [m.updated_congr h hr, h.signals s hs]

theorem foldl_put_inert (x : V) {targets : List Access}
    (ht : ∀ t ∈ targets, ∀ s ∈ t.targets, ¬ D s) (v : Valuation V) :
    (targets.foldl (m.put x) v).Agree D τ v := by
  induction targets generalizing v with
  | nil => exact .refl D τ v
  | cons t targets ih =>
    have hhead := m.put_inert x v (ht t List.mem_cons_self) (τ := τ)
    have htail := ih (fun t' ht' => ht t' (List.mem_cons_of_mem _ ht')) (m.put x v t)
    exact htail.trans hhead

theorem foldl_put_agree (x : V) {targets : List Access}
    (hr : ∀ t ∈ targets, ∀ s ∈ t.indexReads τ, D s) (h : v.Agree D τ v') :
    (targets.foldl (m.put x) v).Agree D τ (targets.foldl (m.put x) v') := by
  induction targets generalizing v v' with
  | nil => exact h
  | cons t targets ih =>
    exact ih (fun t' ht' => hr t' (List.mem_cons_of_mem _ ht'))
      (m.put_agree h (hr t List.mem_cons_self) x)

/-! ## Execution -/

/-- A guard outside `D` keeps every assignment under it out of `D`. -/
theorem not_mem_of_guard {guards reads writes : SignalSet} {scan : Scan} {span : Span}
    (hg : ∃ r ∈ guards, ¬ D r) (hsub : ∀ r ∈ guards, r ∈ reads)
    (hD : (scan.record reads writes span).Closed D) {s : SignalId} (hs : s ∈ writes) : ¬ D s := by
  intro hDs
  obtain ⟨r, hr, hnot⟩ := hg
  exact hnot (hD.reads hs hDs r (hsub r hr))

mutual

/-- Under a guard outside `D`, executing a statement changes nothing that agreement looks at. -/
theorem exec_inert {guards : SignalSet} (hg : ∃ r ∈ guards, ¬ D r) (scan : Scan) (v : Valuation V) :
    ∀ s : Stmt, (scan.stmt guards true s).Closed D →
      (m.exec v s).Agree D (scan.stmt guards true s).taints v
  | .assign targets value span, hD => by
    rw [Scan.stmt] at hD ⊢
    rw [exec]
    refine m.foldl_put_inert _ (fun t ht s hs => ?_) v
    exact not_mem_of_guard hg (fun r hr => SignalSet.mem_union.2 (.inr hr)) hD
      (SignalSet.mem_ofList.2 (List.mem_flatMap.2 ⟨t, ht, hs⟩))
  | .update target op value span, hD => by
    rw [Scan.stmt] at hD ⊢
    rw [exec]
    refine m.put_inert _ v fun s hs => ?_
    exact not_mem_of_guard hg (fun r hr => SignalSet.mem_union.2 (.inr hr)) hD
      (SignalSet.mem_ofList.2 hs)
  | .bind name value span, _ => by
    rw [Scan.stmt, exec]
    refine ⟨fun _ _ => rfl, fun other hother => if_neg fun hname => ?_⟩
    -- the new taint of the local contains the guard
    subst hname
    obtain ⟨r, hr, hnot⟩ := hg
    exact hnot (Scan.within_bindLocal hother r (SignalSet.mem_union.2 (.inr hr)))
  | .branch test thenArm elseArm span, hD => by
    rw [Scan.stmt] at hD ⊢
    rw [exec]
    have hg' : ∃ r ∈ guards ∪ test.reads scan.taints, ¬ D r := by
      obtain ⟨r, hr, hnot⟩ := hg
      exact ⟨r, SignalSet.mem_union.2 (.inl hr), hnot⟩
    split
    · have hthen := execAll_inert hg' false (scan.observe (test.reads scan.taints)) v thenArm
        (hD.of_le (Scan.le_stmts ..))
      exact hthen.mono (Scan.taints_le_stmts _ _ _ _)
    · exact execAll_inert hg' true _ v elseArm hD
  | .eval .., _ | .forLoop .., _ | .whileLoop .., _ | .pass .., _ => by
    rw [Scan.stmt, exec]
    exact .refl ..

theorem execAll_inert {guards : SignalSet} (hg : ∃ r ∈ guards, ¬ D r) (chained : Bool)
    (scan : Scan) (v : Valuation V) :
    ∀ body : List Stmt, (scan.stmts chained guards true body).Closed D →
      (m.execAll v body).Agree D (scan.stmts chained guards true body).taints v
  | [], _ => by
    rw [execAll]
    exact .refl ..
  | s :: rest, hD => by
    rw [Scan.stmts] at hD ⊢
    rw [execAll]
    have hlater : ∃ r ∈ (if chained then guards ∪ s.guardReads scan.taints else guards), ¬ D r := by
      obtain ⟨r, hr, hnot⟩ := hg
      refine ⟨r, ?_, hnot⟩
      split
      · exact SignalSet.mem_union.2 (.inl hr)
      · exact hr
    have hhead := exec_inert hg scan v s (hD.of_le (Scan.le_stmts ..))
    have hrest := execAll_inert hlater chained _ (m.exec v s) rest hD
    exact hrest.trans (hhead.mono (Scan.taints_le_stmts _ _ _ _))

end

mutual

/-- Executing a statement keeps agreement. -/
theorem exec_agree (guards : SignalSet) (nested : Bool) (scan : Scan) {v v' : Valuation V}
    (h : v.Agree D scan.taints v') :
    ∀ s : Stmt, (scan.stmt guards nested s).Closed D →
      (m.exec v s).Agree D (scan.stmt guards nested s).taints (m.exec v' s)
  | .assign targets value span, hD => by
    rw [Scan.stmt] at hD ⊢
    rw [exec, exec]
    by_cases hw : ∃ t ∈ targets, ∃ s ∈ t.targets, D s
    · -- a write into `D`: all that the assignment reads lies in `D`
      obtain ⟨t, ht, s, hs, hDs⟩ := hw
      have hreads := hD.reads (SignalSet.mem_ofList.2 (List.mem_flatMap.2 ⟨t, ht, hs⟩)) hDs
      simp only [SignalSet.mem_union, Scan.mem_foldl_indexReads] at hreads
      rw [m.eval_congr h value fun r hr => hreads r (.inl (.inl hr))]
      exact m.foldl_put_agree _
        (fun t' ht' r hr => hreads r (.inl (.inr (.inr ⟨t', ht', hr⟩)))) h
    · have hout : ∀ t ∈ targets, ∀ s ∈ t.targets, ¬ D s :=
        fun t ht s hs hDs => hw ⟨t, ht, s, hs, hDs⟩
      exact ((m.foldl_put_inert _ hout v).trans h).trans (m.foldl_put_inert _ hout v').symm
  | .update target op value span, hD => by
    rw [Scan.stmt] at hD ⊢
    rw [exec, exec]
    by_cases hw : ∃ s ∈ target.targets, D s
    · obtain ⟨s, hs, hDs⟩ := hw
      have hreads := hD.reads (SignalSet.mem_ofList.2 hs) hDs
      simp only [SignalSet.mem_union, SignalSet.mem_ofList] at hreads
      have hindex : ∀ r ∈ target.indexReads scan.taints, D r :=
        fun r hr => hreads r (.inl (.inl (.inr hr)))
      rw [m.eval_congr h value fun r hr => hreads r (.inl (.inl (.inl hr))),
        m.current_congr h (fun r hr => hreads r (.inl (.inr hr))) hindex]
      exact m.put_agree h hindex _
    · have hout : ∀ s ∈ target.targets, ¬ D s := fun s hs hDs => hw ⟨s, hs, hDs⟩
      exact ((m.put_inert _ v hout).trans h).trans (m.put_inert _ v' hout).symm
  | .bind name value span, _ => by
    rw [Scan.stmt, exec, exec]
    refine ⟨h.signals, fun other hother => ?_⟩
    show (if other = name then some (m.eval v value) else v.locals other) =
      if other = name then some (m.eval v' value) else v'.locals other
    by_cases hname : other = name
    · subst hname
      have hreads := Scan.within_bindLocal hother
      rw [if_pos rfl, if_pos rfl,
        m.eval_congr h value fun r hr => hreads r (SignalSet.mem_union.2 (.inl hr))]
    · rw [if_neg hname, if_neg hname]
      refine h.locals other fun s hs => hother s ?_
      rwa [Scan.findD_bindLocal, if_neg hname]
  | .branch test thenArm elseArm span, hD => by
    rw [Scan.stmt] at hD ⊢
    rw [exec, exec]
    generalize hscan : scan.observe (test.reads scan.taints) = start at hD ⊢
    have htaints : start.taints = scan.taints := by rw [← hscan]; rfl
    generalize htested : test.reads scan.taints = tested at hD ⊢
    have hthen : (start.stmts false (guards ∪ tested) true thenArm).Closed D :=
      hD.of_le (Scan.le_stmts ..)
    have hgrow := Scan.taints_le_stmts false (guards ∪ tested) start thenArm
    have hgrow' := Scan.taints_le_stmts true (guards ∪ tested)
      (start.stmts false (guards ∪ tested) true thenArm) elseArm
    rw [← htaints] at h
    by_cases ht : ∀ r ∈ tested, D r
    · -- the test reads from `D` only: both executions take the same arm
      rw [m.eval_congr h test (by rw [htaints, htested]; exact ht)]
      split
      · exact (execAll_agree false _ true start h thenArm hthen).mono hgrow'
      · exact execAll_agree true _ true _ (h.mono hgrow) elseArm hD
    · -- whichever arms they take, nothing changes that agreement looks at
      have hg : ∃ r ∈ guards ∪ tested, ¬ D r := by
        obtain ⟨r, hr⟩ := Classical.not_forall.1 ht
        obtain ⟨hr, hnot⟩ := Classical.not_imp.1 hr
        exact ⟨r, SignalSet.mem_union.2 (.inr hr), hnot⟩
      have hinert : ∀ u : Valuation V,
          (if m.holds (m.eval u test) then m.execAll u thenArm else m.execAll u elseArm).Agree D
            ((start.stmts false (guards ∪ tested) true thenArm).stmts true (guards ∪ tested) true
              elseArm).taints u := by
        intro u
        split
        · exact (m.execAll_inert hg false start u thenArm hthen).mono hgrow'
        · exact m.execAll_inert hg true _ u elseArm hD
      exact ((hinert v).trans (h.mono (hgrow.trans hgrow'))).trans (hinert v').symm
  | .eval .., _ | .forLoop .., _ | .whileLoop .., _ | .pass .., _ => by
    rw [Scan.stmt, exec, exec]
    exact h

theorem execAll_agree (chained : Bool) (guards : SignalSet) (nested : Bool) (scan : Scan)
    {v v' : Valuation V} (h : v.Agree D scan.taints v') :
    ∀ body : List Stmt, (scan.stmts chained guards nested body).Closed D →
      (m.execAll v body).Agree D (scan.stmts chained guards nested body).taints (m.execAll v' body)
  | [], _ => by
    rw [Scan.stmts, execAll, execAll]
    exact h
  | s :: rest, hD => by
    rw [Scan.stmts] at hD ⊢
    rw [execAll, execAll]
    have hhead := exec_agree guards nested scan h s (hD.of_le (Scan.le_stmts ..))
    exact execAll_agree chained _ nested _ hhead rest hD

end

mutual

/-- A statement writes into the write set only. -/
theorem exec_frame (guards : SignalSet) (nested : Bool) (scan : Scan) (v : Valuation V)
    {s : SignalId} : ∀ st : Stmt, s ∉ (scan.stmt guards nested st).access.writes →
      (m.exec v st).signals s = v.signals s
  | .assign targets value span, hs => by
    rw [Scan.stmt] at hs
    have hout : ∀ t ∈ targets, s ∉ t.targets := fun t ht hmem =>
      hs (SignalSet.mem_union.2 (.inr (SignalSet.mem_ofList.2 (List.mem_flatMap.2 ⟨t, ht, hmem⟩))))
    rw [exec]
    exact (m.foldl_put_inert (D := (· = s)) (τ := ∅) (m.eval v value)
      (fun t ht r hr hrs => hout t ht (hrs ▸ hr)) v).signals s rfl
  | .update target op value span, hs => by
    rw [Scan.stmt] at hs
    rw [exec]
    exact m.put_signals_of_not_mem _ v fun hmem =>
      hs (SignalSet.mem_union.2 (.inr (SignalSet.mem_ofList.2 hmem)))
  | .branch test thenArm elseArm span, hs => by
    rw [Scan.stmt] at hs
    rw [exec]
    split
    · exact execAll_frame false _ true _ v thenArm fun hmem =>
        hs ((Scan.le_stmts ..).writes s hmem)
    · exact execAll_frame true _ true _ v elseArm hs
  | .bind .., _ => by
    rw [exec]
    rfl
  | .eval .., _ | .forLoop .., _ | .whileLoop .., _ | .pass .., _ => by
    rw [exec]

theorem execAll_frame (chained : Bool) (guards : SignalSet) (nested : Bool) (scan : Scan)
    (v : Valuation V) {s : SignalId} :
    ∀ body : List Stmt, s ∉ (scan.stmts chained guards nested body).access.writes →
      (m.execAll v body).signals s = v.signals s
  | [], _ => by rw [execAll]
  | st :: rest, hs => by
    rw [Scan.stmts] at hs
    rw [execAll, execAll_frame chained _ nested _ (m.exec v st) rest hs]
    exact exec_frame guards nested scan v st fun hmem => hs ((Scan.le_stmts ..).writes s hmem)

end

end Meaning

/-! ## The analysis of a block -/

namespace BlockAnalysis

/-- One signal leads to another through zero or more dependencies. -/
def Influences (a : BlockAnalysis) : SignalId → SignalId → Prop :=
  Relation.ReflTransGen fun r w => ∃ span, ⟨r, w, span⟩ ∈ a.dependencies

end BlockAnalysis

/-- **Noninterference.**  However operators, calls and accesses are interpreted, the final value of
a signal is determined by the initial values of the signals that influence it, and a body changes
no signal outside its write set. -/
theorem run_noninterference (m : Meaning V) {block : UpdateBlock μ} {a : BlockAnalysis}
    (ha : block.analyze = .ok a) :
    (∀ (w : SignalId) (σ σ' : SignalId → V), (∀ r, a.Influences r w → σ r = σ' r) →
      m.run σ block.body w = m.run σ' block.body w) ∧
    ∀ (w : SignalId) (σ : SignalId → V), w ∉ a.access.writes → m.run σ block.body w = σ w := by
  obtain ⟨haccess, hdeps⟩ := UpdateBlock.analyze_eq_ok ha
  constructor
  · intro w σ σ' hσ
    have hclosed : (Scan.ofBody block.body).Closed (a.Influences · w) := by
      intro d hd hw
      exact .head ⟨d.span, hdeps ▸ hd⟩ hw
    have hstart : (Valuation.ofSignals σ).Agree (a.Influences · w) ∅ (Valuation.ofSignals σ') :=
      ⟨hσ, fun _ _ => rfl⟩
    have hend := m.execAll_agree false ∅ false Scan.empty hstart block.body hclosed
    exact hend.signals w .refl
  · intro w σ hw
    rw [haccess] at hw
    exact m.execAll_frame false ∅ false Scan.empty (.ofSignals σ) block.body hw

/-- A local that is bound to signal 1 and bound anew where signal 0 holds; elsewhere signal 4
selects which of two other signals is written. -/
def rebinding : UpdateBlock Unit where
  name := "rebinding"
  body :=
    [.bind "x" (.read ⟨1⟩) ⟨1, 0⟩,
      .branch (.read ⟨0⟩) [.bind "x" (.const 5) ⟨3, 4⟩]
        [.assign [.element [⟨3⟩, ⟨5⟩] (.read ⟨4⟩)] (.const 7) ⟨5, 4⟩] ⟨2, 0⟩,
      .set ⟨2⟩ (.localVar "x") ⟨6, 0⟩]
  behavior := fun _ _ memory => .done (.ok (), memory)

/-- Signal 4 does not influence signal 2, and is not written. -/
theorem run_rebinding : ∃ a, rebinding.analyze = .ok a ∧
    Meaning.words.run (fun s => if s = ⟨4⟩ then 1 else 0) rebinding.body ⟨2⟩ =
      Meaning.words.run (fun _ => 0) rebinding.body ⟨2⟩ ∧
    Meaning.words.run (fun s => if s = ⟨4⟩ then 1 else 0) rebinding.body ⟨4⟩ = 1 := by
  have hok : (rebinding.analyze.toOption.map fun a =>
      (a.dependencies.map (fun d => (d.read.index, d.written.index)),
        a.access.writes.contains ⟨4⟩)) =
        some ([(0, 3), (0, 5), (4, 3), (4, 5), (0, 2), (1, 2)], false) := by
    decide
  cases ha : rebinding.analyze with
  | error loops => rw [ha] at hok; cases hok
  | ok a =>
    rw [ha] at hok
    simp only [Except.toOption, Option.map_some, Option.some.injEq, Prod.mk.injEq] at hok
    obtain ⟨hdeps, hwrites⟩ := hok
    obtain ⟨hsame, hframe⟩ := run_noninterference Meaning.words ha
    refine ⟨a, rfl, hsame ⟨2⟩ _ _ fun r hr => ?_, ?_⟩
    · have hmem : ∀ {r w}, (∃ span, ⟨r, w, span⟩ ∈ a.dependencies) →
          (r.index, w.index) ∈ [(0, 3), (0, 5), (4, 3), (4, 5), (0, 2), (1, 2)] := by
        rintro r w ⟨span, h⟩
        exact hdeps ▸ List.mem_map.2 ⟨_, h, rfl⟩
      have hlt : r.index < 3 := by
        induction hr using Relation.ReflTransGen.head_induction_on with
        | refl => decide
        | head h _ ih =>
          have hpair := hmem h
          simp only [List.mem_cons, List.not_mem_nil, Prod.mk.injEq, or_false] at hpair
          omega
      rw [if_neg]
      rintro rfl
      exact absurd hlt (by decide)
    · rw [hframe ⟨4⟩ _ fun h => by rw [SignalSet.contains_eq_true.2 h] at hwrites; cases hwrites]
      rfl

end Cyclewise
