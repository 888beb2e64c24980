import Cyclewise.Proofs.Block.Loops

/-!
# What stands in the text to be read and written

`textReads` and `textWrites` list the signals that a statement itself reads and writes, without what
stands in its arms, and without what its locals stand for.  A scan lists more reads than the text of
a statement has: a local stands for its taint, and guards are read again at each assignment.  All of
these were read before, when the local was bound and when the guard was tested
(`Scan.Contained`), so as sets the accesses of an analysed body are those of its text
(`UpdateBlock.access_exact`).
-/

namespace Cyclewise

variable {μ : Type}

namespace Expr

/-- The signals that stand in an expression to be read.  Calls are opaque. -/
def textReads : Expr → List SignalId
  | const _ | localVar _ | call _ _ => []
  | signal targets => targets
  | element targets index => targets ++ index.textReads
  | unary _ operand => operand.textReads
  | binary _ lhs rhs | compare _ lhs rhs => lhs.textReads ++ rhs.textReads
  | cond test thenExpr elseExpr => test.textReads ++ (thenExpr.textReads ++ elseExpr.textReads)

/-- The local variables that stand in an expression outside calls. -/
def locals : Expr → List String
  | const _ | signal _ | call _ _ => []
  | localVar name => [name]
  | element _ index => index.locals
  | unary _ operand => operand.locals
  | binary _ lhs rhs | compare _ lhs rhs => lhs.locals ++ rhs.locals
  | cond test thenExpr elseExpr => test.locals ++ (thenExpr.locals ++ elseExpr.locals)

/-- An expression reads the signals in its text and those that its locals were computed from. -/
theorem mem_reads {τ : Taints} {a : SignalId} : ∀ {e : Expr},
    a ∈ e.reads τ ↔ a ∈ e.textReads ∨ ∃ name ∈ e.locals, a ∈ τ.findD name ∅
  | const _ | call _ _ => by simp [reads, textReads, locals]
  | localVar name => by simp [reads, textReads, locals]
  | signal targets => by simp [reads, textReads, locals]
  | element targets index => by
    simp [reads, textReads, locals, mem_reads (e := index), or_assoc]
  | unary _ operand => mem_reads (e := operand)
  | binary _ lhs rhs | compare _ lhs rhs => by
    simp only [reads, textReads, locals, SignalSet.mem_union, mem_reads (e := lhs),
      mem_reads (e := rhs), List.mem_append, or_and_right, exists_or]
    exact or_or_or_comm
  | cond test thenExpr elseExpr => by
    simp only [reads, textReads, locals, SignalSet.mem_union, mem_reads (e := test),
      mem_reads (e := thenExpr), mem_reads (e := elseExpr), List.mem_append, or_and_right,
      exists_or]
    rw [or_or_or_comm (b := ∃ name, name ∈ thenExpr.locals ∧ _), or_or_or_comm]

end Expr

namespace Access

/-- The signals that stand in the index of an access. -/
def textReads (t : Access) : List SignalId := (t.index?.map Expr.textReads).getD []

/-- The local variables that stand in the index of an access. -/
def locals (t : Access) : List String := (t.index?.map Expr.locals).getD []

theorem mem_indexReads {τ : Taints} {t : Access} {a : SignalId} :
    a ∈ t.indexReads τ ↔ a ∈ t.textReads ∨ ∃ name ∈ t.locals, a ∈ τ.findD name ∅ := by
  cases t with
  | direct targets => simp [indexReads, textReads, locals, index?]
  | element targets index => exact index.mem_reads

end Access

namespace Stmt

/-- The signals that a statement reads by its text, apart from what stands in its arms. -/
def textReads : Stmt → List SignalId
  | assign targets value _ => value.textReads ++ targets.flatMap Access.textReads
  | update target _ value _ => value.textReads ++ target.textReads ++ target.targets
  | bind _ value _ | eval value _ => value.textReads
  | branch test _ _ _ | whileLoop test _ _ => test.textReads
  | forLoop _ range _ _ => range.textReads
  | pass _ => []

/-- The signals that a statement assigns to by its text, apart from what stands in its arms. -/
def textWrites : Stmt → List SignalId
  | assign targets _ _ => targets.flatMap Access.targets
  | update target _ _ _ => target.targets
  | _ => []

/-- The local variables that a statement reads by its text, apart from what stands in its arms. -/
def locals : Stmt → List String
  | assign targets value _ => value.locals ++ targets.flatMap Access.locals
  | update target _ value _ => value.locals ++ target.locals
  | bind _ value _ | eval value _ => value.locals
  | branch test _ _ _ | whileLoop test _ _ => test.locals
  | forLoop _ range _ _ => range.locals
  | pass _ => []

/-- The signals that a statement reads, directly or through locals, apart from its arms and from
what guards it. -/
def reads (τ : Taints) : Stmt → SignalSet
  | assign targets value _ => value.reads τ ∪ targets.foldl (fun set t => set ∪ t.indexReads τ) ∅
  | update target _ value _ =>
    value.reads τ ∪ target.indexReads τ ∪ SignalSet.ofList target.targets
  | bind _ value _ | eval value _ => value.reads τ
  | branch test _ _ _ | whileLoop test _ _ => test.reads τ
  | forLoop _ range _ _ => range.reads τ
  | pass _ => ∅

theorem mem_reads {τ : Taints} {s : Stmt} {a : SignalId} :
    a ∈ s.reads τ ↔ a ∈ s.textReads ∨ ∃ name ∈ s.locals, a ∈ τ.findD name ∅ := by
  cases s with
  | assign targets value span =>
    have hindices : (∃ t ∈ targets, a ∈ t.indexReads τ) ↔ a ∈ targets.flatMap Access.textReads ∨
        ∃ name ∈ targets.flatMap Access.locals, a ∈ τ.findD name ∅ := by
      simp only [Access.mem_indexReads, List.mem_flatMap]
      grind
    simp only [reads, textReads, locals, SignalSet.mem_union, Scan.mem_foldl_indexReads, hindices,
      SignalSet.not_mem_empty, false_or, value.mem_reads, List.mem_append, or_and_right, exists_or]
    exact or_or_or_comm
  | update target op value span =>
    simp only [reads, textReads, locals, SignalSet.mem_union, value.mem_reads,
      Access.mem_indexReads, SignalSet.mem_ofList, List.mem_append, or_and_right, exists_or]
    rw [or_or_or_comm, or_right_comm]
  | bind name value span | eval value span => exact value.mem_reads
  | branch test thenArm elseArm span => exact test.mem_reads
  | whileLoop test body span => exact test.mem_reads
  | forLoop name range body span => exact range.mem_reads
  | pass span => simp [reads, textReads, locals]

theorem reads_of_guardReads {τ : Taints} {s : Stmt} {a : SignalId} (ha : a ∈ s.guardReads τ) :
    a ∈ s.reads τ := by
  cases s with
  | branch test thenArm elseArm span => exact ha
  | _ => exact absurd ha (SignalSet.not_mem_empty a)

end Stmt

namespace Scan

/-! ## Locals stand for reads -/

/-- What the locals were computed from has been read. -/
def Contained (scan : Scan) : Prop := ∀ name, scan.taints.Within (· ∈ scan.access.reads) name

theorem kept_contained : Kept Contained := by
  have hobserve : ∀ {scan : Scan} (reads : SignalSet), scan.Contained →
      (scan.observe reads).Contained := fun reads h name a ha =>
    SignalSet.mem_union.2 (.inl (h name a ha))
  refine ⟨hobserve, fun reads _ _ h => hobserve reads h, fun {scan} nested name taint h => ?_,
    fun _ _ h => h⟩
  intro other a ha
  rw [findD_bindLocal] at ha
  show a ∈ scan.access.reads ∪ taint
  rw [SignalSet.mem_union]
  split at ha
  · cases nested with
    | true => exact (SignalSet.mem_union.1 ha).imp_left (h name a)
    | false => exact .inr ha
  · exact .inl (h other a ha)

theorem Contained.mem_reads {scan : Scan} (h : scan.Contained) {s : Stmt} {a : SignalId} :
    a ∈ scan.access.reads ∨ a ∈ s.reads scan.taints ↔ a ∈ scan.access.reads ∨ a ∈ s.textReads := by
  rw [Stmt.mem_reads, ← or_assoc]
  exact or_iff_left_of_imp fun ⟨name, _, ha⟩ => .inl (h name a ha)

/-! ## What a scan finds in addition -/

/-- From one scan to a later one come the accesses in the text of the statements found, and no
others. -/
structure Gains (found : List (Position × Stmt)) (scan scan' : Scan) : Prop where
  reads : ∀ a, a ∈ scan'.access.reads ↔
    a ∈ scan.access.reads ∨ ∃ q ∈ found, a ∈ q.2.textReads
  writes : ∀ a, a ∈ scan'.access.writes ↔
    a ∈ scan.access.writes ∨ ∃ q ∈ found, a ∈ q.2.textWrites

namespace Gains

variable {found found' : List (Position × Stmt)} {scan scan' scan'' : Scan}

theorem append (h : Gains found scan scan') (h' : Gains found' scan' scan'') :
    Gains (found ++ found') scan scan'' where
  reads a := by
    rw [h'.reads, h.reads, or_assoc]
    simp only [List.mem_append, or_and_right, exists_or]
  writes a := by
    rw [h'.writes, h.writes, or_assoc]
    simp only [List.mem_append, or_and_right, exists_or]

theorem enter (h : Gains found scan scan') (i : Nat) (arm : Arm) :
    Gains (found.map (Stmt.enter i arm)) scan scan' where
  reads a := by
    rw [h.reads]
    simp only [List.mem_map, exists_exists_and_eq_and, Stmt.enter]
  writes a := by
    rw [h.writes]
    simp only [List.mem_map, exists_exists_and_eq_and, Stmt.enter]

/-- One statement gives its own accesses. -/
theorem place (hc : scan.Contained) (p : Position) {s : Stmt}
    (hreads : ∀ a, a ∈ scan'.access.reads ↔ a ∈ scan.access.reads ∨ a ∈ s.reads scan.taints)
    (hwrites : ∀ a, a ∈ scan'.access.writes ↔ a ∈ scan.access.writes ∨ a ∈ s.textWrites) :
    Gains [(p, s)] scan scan' where
  reads a := by simp only [hreads, hc.mem_reads, List.mem_singleton, exists_eq_left]
  writes a := by simp only [hwrites, List.mem_singleton, exists_eq_left]

end Gains

section

variable {guards : SignalSet} {scan : Scan} (hguards : ∀ a ∈ guards, a ∈ scan.access.reads)

include hguards

/-- Guards have been read before what they guard. -/
theorem mem_union_guards {reads : SignalSet} {a : SignalId} :
    a ∈ scan.access.reads ∪ (reads ∪ guards) ↔ a ∈ scan.access.reads ∨ a ∈ reads := by
  rw [SignalSet.mem_union, SignalSet.mem_union, ← or_assoc]
  exact or_iff_left_of_imp fun ha => .inl (hguards a ha)

theorem gains_record (hc : scan.Contained) (p : Position) {s : Stmt} (span : Span) :
    Gains [(p, s)] scan
      (scan.record (s.reads scan.taints ∪ guards) (SignalSet.ofList s.textWrites) span) :=
  .place hc p (fun _ => mem_union_guards hguards)
    fun _ => SignalSet.mem_union.trans (or_congr_right SignalSet.mem_ofList)

end

mutual

theorem gains_stmt {guards : SignalSet} (nested : Bool) (i : Nat) {scan : Scan}
    (hc : scan.Contained) (hguards : ∀ a ∈ guards, a ∈ scan.access.reads) :
    ∀ s : Stmt, s.hasLoop = false → Gains (s.places i) scan (scan.stmt guards nested s)
  | .assign targets value span, _ => by
    rw [stmt]
    exact gains_record hguards hc _ span
  | .update target op value span, _ => by
    rw [stmt]
    exact gains_record hguards hc _ span
  | .bind name value span, _ => by
    rw [stmt]
    exact .place hc _ (fun _ => mem_union_guards hguards) fun a => by
      simp [Stmt.textWrites, bindLocal, observe]
  | .branch test thenArm elseArm span, hfree => by
    rw [Stmt.hasLoop, Bool.or_eq_false_iff] at hfree
    have htest : Gains [(.here i, .branch test thenArm elseArm span)] scan
        (scan.observe (test.reads scan.taints)) :=
      .place hc _ (fun _ => SignalSet.mem_union) fun a => by simp [Stmt.textWrites, observe]
    have hguards' : ∀ a ∈ guards ∪ test.reads scan.taints,
        a ∈ (scan.observe (test.reads scan.taints)).access.reads := fun a ha =>
      SignalSet.mem_union.2 ((SignalSet.mem_union.1 ha).imp_left (hguards a))
    have hthen := gains_stmts false true 0 (kept_contained.observe _ hc) hguards' thenArm hfree.1
    have helse := gains_stmts true true 0
      (kept_contained.stmts false (guards ∪ test.reads scan.taints) true
        (kept_contained.observe _ hc) thenArm)
      (fun a ha => (hthen.reads a).2 (.inl (hguards' a ha))) elseArm hfree.2
    rw [stmt, Stmt.places]
    exact htest.append ((hthen.enter i .thenArm).append (helse.enter i .elseArm))
  | .eval value span, _ => by
    rw [stmt]
    exact .place hc _ (fun _ => SignalSet.mem_union) fun a => by simp [Stmt.textWrites, observe]
  | .pass span, _ => by
    rw [stmt]
    exact .place hc _ (fun a => by simp [Stmt.reads]) fun a => by simp [Stmt.textWrites]

theorem gains_stmts (chained : Bool) {guards : SignalSet} (nested : Bool) (i : Nat) {scan : Scan}
    (hc : scan.Contained) (hguards : ∀ a ∈ guards, a ∈ scan.access.reads) :
    ∀ body : List Stmt, Stmt.hasLoopAll body = false →
      Gains (Stmt.placesAll i body) scan (scan.stmts chained guards nested body)
  | [], _ => by
    rw [stmts]
    exact ⟨fun a => by simp [Stmt.placesAll], fun a => by simp [Stmt.placesAll]⟩
  | s :: rest, hfree => by
    rw [Stmt.hasLoopAll, Bool.or_eq_false_iff] at hfree
    have hs := gains_stmt nested i hc hguards s hfree.1
    have hlater : ∀ a ∈ (if chained then guards ∪ s.guardReads scan.taints else guards),
        a ∈ (scan.stmt guards nested s).access.reads := by
      intro a ha
      have hguard : a ∈ guards ∨ a ∈ s.guardReads scan.taints := by
        cases chained with
        | true => exact SignalSet.mem_union.1 ha
        | false => exact .inl ha
      rcases hguard with ha | ha
      · exact (hs.reads a).2 (.inl (hguards a ha))
      · refine (hs.reads a).2 ((hc.mem_reads.1 (.inr (Stmt.reads_of_guardReads ha))).imp_right ?_)
        exact fun ha => ⟨(.here i, s), Stmt.here_mem_places i s, ha⟩
    rw [stmts, Stmt.placesAll]
    exact hs.append (gains_stmts chained nested (i + 1) (kept_contained.stmt guards nested hc s)
      hlater rest hfree.2)

end

theorem gains_ofBody {body : Body} (hfree : Stmt.hasLoopAll body = false) :
    Gains (Stmt.placesAll 0 body) empty (ofBody body) := by
  have hc : empty.Contained := fun name a ha => absurd ha (SignalSet.not_mem_empty a)
  have hguards : ∀ a ∈ (∅ : SignalSet), a ∈ empty.access.reads := SignalSet.forall_mem_empty
  exact gains_stmts false false 0 hc hguards body hfree

end Scan

section

variable {block : UpdateBlock μ} {a : BlockAnalysis} (h : block.analyze = .ok a)

include h

theorem UpdateBlock.mem_reads_of_analyze {r : SignalId} :
    r ∈ a.access.reads ↔ ∃ p s, Position.find? p block.body = some s ∧ r ∈ s.textReads := by
  have hempty : r ∉ Scan.empty.access.reads := SignalSet.not_mem_empty r
  rw [(analyze_eq_ok h).1, (Scan.gains_ofBody (hasLoopAll_of_analyze h)).reads,
    Stmt.exists_mem_placesAll (P := fun s => r ∈ s.textReads)]
  exact or_iff_right hempty

theorem UpdateBlock.mem_writes_of_analyze {w : SignalId} :
    w ∈ a.access.writes ↔ ∃ p s, Position.find? p block.body = some s ∧ w ∈ s.textWrites := by
  have hempty : w ∉ Scan.empty.access.writes := SignalSet.not_mem_empty w
  rw [(analyze_eq_ok h).1, (Scan.gains_ofBody (hasLoopAll_of_analyze h)).writes,
    Stmt.exists_mem_placesAll (P := fun s => w ∈ s.textWrites)]
  exact or_iff_right hempty

end

/-- **The accesses of a body are those of its text.**  An analysed block reads exactly the signals
that stand somewhere in its body to be read, and writes exactly those that stand there as targets of
assignments; its dependencies lead from reads to other writes. -/
theorem UpdateBlock.access_exact {block : UpdateBlock μ} {a : BlockAnalysis}
    (h : block.analyze = .ok a) :
    (∀ r, r ∈ a.access.reads ↔
      ∃ p s, Position.find? p block.body = some s ∧ r ∈ s.textReads) ∧
    (∀ w, w ∈ a.access.writes ↔
      ∃ p s, Position.find? p block.body = some s ∧ w ∈ s.textWrites) ∧
    ∀ d ∈ a.dependencies,
      d.read ≠ d.written ∧ d.read ∈ a.access.reads ∧ d.written ∈ a.access.writes := by
  refine ⟨fun r => mem_reads_of_analyze h, fun w => mem_writes_of_analyze h,
    fun d hd => ⟨?_, grounded h d hd⟩⟩
  rw [(analyze_eq_ok h).2] at hd
  exact Scan.irreflexive_ofBody block.body d hd

/-- Signal 3 is read through a local and signal 0 by a test, and both again where the local is used
under the test.  The argument of the call is not read. -/
def steering : UpdateBlock Unit where
  name := "steering"
  body :=
    [.bind "x" (.element [⟨1⟩, ⟨2⟩] (.read ⟨3⟩)) ⟨1, 0⟩,
      .branch (.read ⟨0⟩)
        [.update (.element [⟨4⟩, ⟨5⟩] (.read ⟨6⟩)) .add (.localVar "x") ⟨3, 4⟩]
        [.eval (.call "log" [.read ⟨7⟩]) ⟨5, 4⟩] ⟨2, 0⟩]
  behavior := fun _ _ memory => .done (.ok (), memory)

/-- What is read and written, in the order of the text. -/
theorem steering_access : ∃ a, steering.analyze = .ok a ∧
    (∀ r, r ∈ a.access.reads ↔ r ∈ [⟨1⟩, ⟨2⟩, ⟨3⟩, ⟨0⟩, ⟨6⟩, ⟨4⟩, (⟨5⟩ : SignalId)]) ∧
    (∀ w, w ∈ a.access.writes ↔ w ∈ [⟨4⟩, (⟨5⟩ : SignalId)]) := by
  have hreads : (Stmt.placesAll 0 steering.body).flatMap (fun q => q.2.textReads) =
      [⟨1⟩, ⟨2⟩, ⟨3⟩, ⟨0⟩, ⟨6⟩, ⟨4⟩, ⟨5⟩] := rfl
  have hwrites : (Stmt.placesAll 0 steering.body).flatMap (fun q => q.2.textWrites) =
      [⟨4⟩, ⟨5⟩] := rfl
  have ha : steering.analyze = _ := UpdateBlock.analyze_of_hasLoopAll (by decide)
  obtain ⟨hr, hw, -⟩ := UpdateBlock.access_exact ha
  refine ⟨_, ha, fun r => ?_, fun w => ?_⟩
  · rw [hr, ← Stmt.exists_mem_placesAll, ← hreads, List.mem_flatMap]
  · rw [hw, ← Stmt.exists_mem_placesAll, ← hwrites, List.mem_flatMap]

end Cyclewise
