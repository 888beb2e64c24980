import Cyclewise.Proofs.BitSet
import Cyclewise.Proofs.OrderedMap
import Cyclewise.Block.Access

/-!
# What a scan keeps

What is kept by each note of a scan is kept by the whole (`Scan.Kept`).  So a scan never forgets a
dependency or a write (`Scan.Le`), and the ends of all dependencies are in the read set and in the
write set (`Scan.Grounded`), and differ.  Inside a conditional no taint shrinks either
(`Scan.taints_le_stmts`).

A set of signals is closed for a scan when it contains whatever its members depend on; an assignment
that writes into a closed set reads from it only (`Scan.Closed.reads`).
-/

namespace Cyclewise

variable {μ : Type}

namespace Taints

/-- Every taint of `τ` is part of the taint of the same local in `τ'`. -/
def Le (τ τ' : Taints) : Prop := ∀ name s, s ∈ τ.findD name ∅ → s ∈ τ'.findD name ∅

theorem Le.refl (τ : Taints) : τ.Le τ := fun _ _ h => h

theorem Le.trans {τ₁ τ₂ τ₃ : Taints} (h : τ₁.Le τ₂) (h' : τ₂.Le τ₃) : τ₁.Le τ₃ :=
  fun name s hs => h' name s (h name s hs)

/-- The taint of a local lies in a set of signals. -/
def Within (τ : Taints) (D : SignalId → Prop) (name : String) : Prop :=
  ∀ s ∈ τ.findD name ∅, D s

theorem Within.mono {τ τ' : Taints} {D : SignalId → Prop} {name : String} (hle : τ.Le τ')
    (h : τ'.Within D name) : τ.Within D name :=
  fun s hs => h s (hle name s hs)

end Taints

/-- The order by what is read and then by what is written. -/
def Dependency.Less (d d' : Dependency) : Prop :=
  d.read.index < d'.read.index ∨ d.read = d'.read ∧ d.written.index < d'.written.index

namespace Scan

/-! ## What each note keeps -/

/-- A property of scans is kept by each thing that a scan notes. -/
structure Kept (P : Scan → Prop) : Prop where
  observe : ∀ {scan : Scan} (reads : SignalSet), P scan → P (scan.observe reads)
  record : ∀ {scan : Scan} (reads writes : SignalSet) (span : Span), P scan →
    P (scan.record reads writes span)
  bindLocal : ∀ {scan : Scan} (nested : Bool) (name : String) (taint : SignalSet), P scan →
    P (scan.bindLocal nested name taint)
  reject : ∀ {scan : Scan} (kind : LoopKind) (span : Span), P scan → P (scan.reject kind span)

namespace Kept

variable {P : Scan → Prop}

mutual

theorem stmt (hP : Kept P) (guards : SignalSet) (nested : Bool) {scan : Scan} (h : P scan) :
    ∀ s : Stmt, P (scan.stmt guards nested s)
  | .assign .. | .update .. => by rw [Scan.stmt]; exact hP.record _ _ _ h
  | .bind .. => by rw [Scan.stmt]; exact hP.bindLocal _ _ _ h
  | .eval .. => by rw [Scan.stmt]; exact hP.observe _ h
  | .forLoop .. | .whileLoop .. => by rw [Scan.stmt]; exact hP.reject _ _ h
  | .pass .. => by rw [Scan.stmt]; exact h
  | .branch test thenArm elseArm _ => by
    rw [Scan.stmt]
    have hthen := stmts hP false (guards ∪ test.reads scan.taints) true
      (hP.observe (test.reads scan.taints) h) thenArm
    exact stmts hP true _ true hthen elseArm

/-- Then a scan of any statements keeps it. -/
theorem stmts (hP : Kept P) (chained : Bool) (guards : SignalSet) (nested : Bool) {scan : Scan}
    (h : P scan) : ∀ body : List Stmt, P (scan.stmts chained guards nested body)
  | [] => by rw [Scan.stmts]; exact h
  | s :: rest => by
    rw [Scan.stmts]
    exact stmts hP _ _ _ (stmt hP guards nested h s) rest

end

end Kept

/-! ## Growth -/

/-- What is found in a scan is found in a later one. -/
structure Le (scan scan' : Scan) : Prop where
  dependencies : ∀ d ∈ scan.dependencies, d ∈ scan'.dependencies
  writes : ∀ s ∈ scan.access.writes, s ∈ scan'.access.writes

theorem Le.refl (scan : Scan) : scan.Le scan := ⟨fun _ h => h, fun _ h => h⟩

theorem kept_le (scan : Scan) : Kept scan.Le where
  observe _ h := ⟨h.dependencies, h.writes⟩
  record _ _ _ h := ⟨fun d hd => List.mem_append_left _ (h.dependencies d hd),
    fun s hs => SignalSet.mem_union.2 (.inl (h.writes s hs))⟩
  bindLocal _ _ _ h := ⟨h.dependencies, h.writes⟩
  reject _ _ h := ⟨h.dependencies, h.writes⟩

theorem le_stmts (chained : Bool) (guards : SignalSet) (nested : Bool) (scan : Scan)
    (body : List Stmt) : scan.Le (scan.stmts chained guards nested body) :=
  (kept_le scan).stmts chained guards nested (.refl scan) body

/-! ## Taints -/

theorem findD_bindLocal (scan : Scan) (nested : Bool) (name : String) (taint : SignalSet)
    (other : String) :
    (scan.bindLocal nested name taint).taints.findD other ∅ =
      if other = name then (if nested then scan.taints.findD name ∅ ∪ taint else taint)
      else scan.taints.findD other ∅ := by
  cases nested with
  | true => exact OrderedMap.findD_modify scan.taints name ∅ (· ∪ taint) other
  | false => exact OrderedMap.findD_insert scan.taints name taint other ∅

/-- A binding in a conditional only adds to the taint of its local. -/
theorem taints_le_bindLocal (scan : Scan) (name : String) (taint : SignalSet) :
    scan.taints.Le (scan.bindLocal true name taint).taints := by
  intro other s hs
  rw [findD_bindLocal]
  split
  · next h =>
    subst h
    exact SignalSet.mem_union.2 (.inl hs)
  · exact hs

/-- The taint of a bound local contains that of the value. -/
theorem within_bindLocal {D : SignalId → Prop} {scan : Scan} {nested : Bool} {name : String}
    {taint : SignalSet} (h : (scan.bindLocal nested name taint).taints.Within D name) :
    ∀ s ∈ taint, D s := by
  intro s hs
  apply h
  rw [findD_bindLocal, if_pos rfl]
  cases nested with
  | true => exact SignalSet.mem_union.2 (.inr hs)
  | false => exact hs

mutual

theorem taints_le_stmt (guards : SignalSet) (scan : Scan) :
    ∀ s : Stmt, scan.taints.Le (scan.stmt guards true s).taints
  | .assign .. | .update .. | .eval .. | .forLoop .. | .whileLoop .. | .pass .. => by
    rw [stmt]
    exact .refl _
  | .bind .. => by
    rw [stmt]
    exact taints_le_bindLocal _ _ _
  | .branch test thenArm elseArm _ => by
    rw [stmt]
    have hthen := taints_le_stmts false (guards ∪ test.reads scan.taints)
      (scan.observe (test.reads scan.taints)) thenArm
    exact hthen.trans (taints_le_stmts _ _ _ _)

theorem taints_le_stmts (chained : Bool) (guards : SignalSet) (scan : Scan) :
    ∀ body : List Stmt, scan.taints.Le (scan.stmts chained guards true body).taints
  | [] => by rw [stmts]; exact .refl _
  | s :: rest => by
    rw [stmts]
    exact (taints_le_stmt guards scan s).trans (taints_le_stmts _ _ _ _)

end

/-! ## Assignments -/

/-- An assignment adds its dependencies in the order of what is read and then of what is written. -/
theorem exists_record (scan : Scan) (reads writes : SignalSet) (span : Span) :
    ∃ found, (scan.record reads writes span).dependencies = scan.dependencies ++ found ∧
      found.Pairwise Dependency.Less ∧ ∀ d, d ∈ found ↔
        d.read ∈ reads ∧ d.written ∈ writes ∧ d.read ≠ d.written ∧ d.span = span := by
  refine ⟨_, rfl, ?_, fun d => ?_⟩
  · rw [List.pairwise_flatMap]
    refine ⟨fun r _ => ?_, reads.pairwise_toList.imp fun hlt d hd d' hd' => ?_⟩
    · rw [List.pairwise_map]
      exact (writes.pairwise_toList.filter _).imp fun hlt => .inr ⟨rfl, hlt⟩
    · obtain ⟨w, -, rfl⟩ := List.mem_map.1 hd
      obtain ⟨w', -, rfl⟩ := List.mem_map.1 hd'
      exact .inl hlt
  · obtain ⟨r, w, p⟩ := d
    simp only [List.mem_flatMap, List.mem_map, List.mem_filter, SignalSet.mem_toList,
      decide_eq_true_eq, Dependency.mk.injEq]
    constructor
    · rintro ⟨_, hr, _, ⟨hw, hne⟩, rfl, rfl, rfl⟩
      exact ⟨hr, hw, hne, rfl⟩
    · rintro ⟨hr, hw, hne, rfl⟩
      exact ⟨r, hr, w, ⟨hw, hne⟩, rfl, rfl, rfl⟩

/-! ## Closed sets of signals -/

/-- `D` contains what its members depend on. -/
def Closed (D : SignalId → Prop) (scan : Scan) : Prop :=
  ∀ d ∈ scan.dependencies, D d.written → D d.read

theorem Closed.of_le {D : SignalId → Prop} {scan scan' : Scan} (h : scan'.Closed D)
    (hle : scan.Le scan') : scan.Closed D :=
  fun d hd => h d (hle.dependencies d hd)

theorem mem_dependencies_record {scan : Scan} {reads writes : SignalSet} {span : Span}
    {d : Dependency} : d ∈ (scan.record reads writes span).dependencies ↔
      d ∈ scan.dependencies ∨
        d.read ∈ reads ∧ d.written ∈ writes ∧ d.read ≠ d.written ∧ d.span = span := by
  obtain ⟨found, hfound, -, hmem⟩ := exists_record scan reads writes span
  rw [hfound, List.mem_append, hmem]

/-- An assignment that writes into a closed set reads from it only. -/
theorem Closed.reads {D : SignalId → Prop} {scan : Scan} {reads writes : SignalSet} {span : Span}
    (h : (scan.record reads writes span).Closed D) {w : SignalId} (hw : w ∈ writes) (hD : D w) :
    ∀ r ∈ reads, D r := by
  intro r hr
  by_cases hne : r = w
  · exact hne ▸ hD
  · exact h ⟨r, w, span⟩ (mem_dependencies_record.2 (.inr ⟨hr, hw, hne, rfl⟩)) hD

theorem mem_foldl_indexReads {τ : Taints} {targets : List Access} {set : SignalSet}
    {s : SignalId} : s ∈ targets.foldl (fun set t => set ∪ t.indexReads τ) set ↔
      s ∈ set ∨ ∃ t ∈ targets, s ∈ t.indexReads τ := by
  induction targets generalizing set with
  | nil => simp
  | cons t targets ih => simp [ih, or_assoc]

/-! ## The ends of dependencies -/

/-- Dependencies lead from signals that are read to signals that are written. -/
def Grounded (scan : Scan) : Prop :=
  ∀ d ∈ scan.dependencies, d.read ∈ scan.access.reads ∧ d.written ∈ scan.access.writes

theorem kept_grounded : Kept Grounded := by
  have hobserve : ∀ {scan : Scan} (reads : SignalSet), scan.Grounded →
      (scan.observe reads).Grounded := fun reads h d hd =>
    ⟨SignalSet.mem_union.2 (.inl (h d hd).1), (h d hd).2⟩
  refine ⟨hobserve, fun reads writes span h d hd => ?_,
    fun _ _ taint h => hobserve taint h, fun _ _ h => h⟩
  rcases mem_dependencies_record.1 hd with hd | ⟨hr, hw, -⟩
  · exact ⟨SignalSet.mem_union.2 (.inl (h d hd).1), SignalSet.mem_union.2 (.inl (h d hd).2)⟩
  · exact ⟨SignalSet.mem_union.2 (.inr hr), SignalSet.mem_union.2 (.inr hw)⟩

theorem grounded_ofBody (body : Body) : (ofBody body).Grounded :=
  kept_grounded.stmts false ∅ false (fun _ hd => absurd hd List.not_mem_nil) body

/-- No signal depends on itself. -/
theorem kept_irreflexive : Kept fun scan => ∀ d ∈ scan.dependencies, d.read ≠ d.written := by
  refine ⟨fun _ h => h, fun reads writes span h d hd => ?_, fun _ _ _ h => h, fun _ _ h => h⟩
  rcases mem_dependencies_record.1 hd with hd | ⟨-, -, hne, -⟩
  · exact h d hd
  · exact hne

theorem irreflexive_ofBody (body : Body) : ∀ d ∈ (ofBody body).dependencies, d.read ≠ d.written :=
  kept_irreflexive.stmts false ∅ false (fun _ hd => absurd hd List.not_mem_nil) body

end Scan

theorem UpdateBlock.analyze_eq_ok {block : UpdateBlock μ} {a : BlockAnalysis}
    (h : block.analyze = .ok a) :
    a.access = (Scan.ofBody block.body).access ∧
      a.dependencies = (Scan.ofBody block.body).dependencies := by
  unfold analyze at h
  simp only at h
  split at h
  · cases h
    exact ⟨rfl, rfl⟩
  · cases h

/-- The analysis of a block lists the ends of its dependencies among its accesses. -/
theorem UpdateBlock.grounded {block : UpdateBlock μ} {a : BlockAnalysis}
    (h : block.analyze = .ok a) :
    ∀ d ∈ a.dependencies, d.read ∈ a.access.reads ∧ d.written ∈ a.access.writes := by
  obtain ⟨haccess, hdependencies⟩ := analyze_eq_ok h
  rw [haccess, hdependencies]
  exact Scan.grounded_ofBody block.body

end Cyclewise
