import Cyclewise.Proofs.Block.Footprint

/-!
# The signals that a body names

`Stmt.names` lists the signals that stand in the text of a body, in call arguments and loops too.
Those to be read and written are among them, wherever they stand (`mem_namesAll_of_find?`), so an
analysed block accesses only signals that its body names (`UpdateBlock.mem_names_of_analyze`).
-/

namespace Cyclewise

mutual

/-- The signals that stand in an expression. -/
def Expr.names : Expr → List SignalId
  | .const _ | .localVar _ => []
  | .signal targets => targets
  | .element targets index => targets ++ index.names
  | .unary _ operand => operand.names
  | .binary _ lhs rhs => lhs.names ++ rhs.names
  | .compare _ lhs rhs => lhs.names ++ rhs.names
  | .cond test thenExpr elseExpr => test.names ++ (thenExpr.names ++ elseExpr.names)
  | .call _ args => Expr.namesAll args

/-- The signals that stand in the arguments of a call. -/
def Expr.namesAll : List Expr → List SignalId
  | [] => []
  | e :: rest => e.names ++ Expr.namesAll rest

end

/-- The signals that stand in a place to assign to. -/
def Access.names : Access → List SignalId
  | .direct targets => targets
  | .element targets index => targets ++ index.names

mutual

/-- The signals that stand in a statement. -/
def Stmt.names : Stmt → List SignalId
  | .assign targets value _ => targets.flatMap Access.names ++ value.names
  | .update target _ value _ => target.names ++ value.names
  | .bind _ value _ => value.names
  | .branch test thenArm elseArm _ =>
    test.names ++ (Stmt.namesAll thenArm ++ Stmt.namesAll elseArm)
  | .eval value _ => value.names
  | .forLoop _ range body _ => range.names ++ Stmt.namesAll body
  | .whileLoop test body _ => test.names ++ Stmt.namesAll body
  | .pass _ => []

/-- The signals that stand in a list of statements. -/
def Stmt.namesAll : List Stmt → List SignalId
  | [] => []
  | s :: rest => s.names ++ Stmt.namesAll rest

end

/-- The signals that stand in a body. -/
def Body.names (body : Body) : List SignalId := Stmt.namesAll body

variable {a : SignalId}

/-! ## What is read and written is named -/

theorem Expr.mem_names_of_textReads : ∀ {e : Expr}, a ∈ e.textReads → a ∈ e.names
  | .const _, h | .localVar _, h | .call _ _, h => absurd h List.not_mem_nil
  | .signal _, h => h
  | .element _ index, h => by
    rw [textReads, List.mem_append] at h
    rw [names, List.mem_append]
    exact h.imp_right mem_names_of_textReads
  | .unary _ operand, h => by
    rw [names]
    exact mem_names_of_textReads (e := operand) h
  | .binary _ _ _, h | .compare _ _ _, h => by
    rw [textReads, List.mem_append] at h
    rw [names, List.mem_append]
    exact h.imp mem_names_of_textReads mem_names_of_textReads
  | .cond _ _ _, h => by
    rw [textReads, List.mem_append, List.mem_append] at h
    rw [names, List.mem_append, List.mem_append]
    exact h.imp mem_names_of_textReads (.imp mem_names_of_textReads mem_names_of_textReads)

theorem Access.mem_names_of_textReads {t : Access} (h : a ∈ t.textReads) : a ∈ t.names := by
  cases t with
  | direct targets => exact absurd h List.not_mem_nil
  | element targets index => exact List.mem_append_right _ (Expr.mem_names_of_textReads h)

theorem Access.mem_names_of_targets {t : Access} (h : a ∈ t.targets) : a ∈ t.names := by
  cases t with
  | direct targets => exact h
  | element targets index => exact List.mem_append_left _ h

namespace Stmt

theorem mem_names_of_textReads {s : Stmt} (h : a ∈ s.textReads) : a ∈ s.names := by
  cases s with
  | assign targets value span =>
    rw [textReads, List.mem_append, List.mem_flatMap] at h
    rw [names, List.mem_append, List.mem_flatMap]
    rcases h with h | ⟨t, ht, h⟩
    · exact .inr (Expr.mem_names_of_textReads h)
    · exact .inl ⟨t, ht, Access.mem_names_of_textReads h⟩
  | update target op value span =>
    rw [textReads, List.mem_append, List.mem_append] at h
    rw [names, List.mem_append]
    rcases h with (h | h) | h
    · exact .inr (Expr.mem_names_of_textReads h)
    · exact .inl (Access.mem_names_of_textReads h)
    · exact .inl (Access.mem_names_of_targets h)
  | bind name value span | eval value span =>
    rw [names]
    exact Expr.mem_names_of_textReads h
  | branch test thenArm elseArm span =>
    rw [names]
    exact List.mem_append_left _ (Expr.mem_names_of_textReads h)
  | forLoop name range body span =>
    rw [names]
    exact List.mem_append_left _ (Expr.mem_names_of_textReads h)
  | whileLoop test body span =>
    rw [names]
    exact List.mem_append_left _ (Expr.mem_names_of_textReads h)
  | pass span => exact absurd h List.not_mem_nil

theorem mem_names_of_textWrites {s : Stmt} (h : a ∈ s.textWrites) : a ∈ s.names := by
  cases s with
  | assign targets value span =>
    obtain ⟨t, ht, h⟩ := List.mem_flatMap.1 h
    rw [names]
    exact List.mem_append_left _ (List.mem_flatMap.2 ⟨t, ht, Access.mem_names_of_targets h⟩)
  | update target op value span =>
    rw [names]
    exact List.mem_append_left _ (Access.mem_names_of_targets h)
  | _ => exact absurd h List.not_mem_nil

/-! ## What stands in a body is named in it -/

theorem mem_namesAll {body : List Stmt} : a ∈ namesAll body ↔ ∃ s ∈ body, a ∈ s.names := by
  induction body with
  | nil => simp [namesAll]
  | cons s rest ih => simp [namesAll, ih]

theorem mem_names_of_arm {s : Stmt} {arm : Arm} (h : a ∈ namesAll (s.arm arm)) : a ∈ s.names := by
  cases s with
  | branch test thenArm elseArm span =>
    rw [names, List.mem_append, List.mem_append]
    cases arm with
    | thenArm => exact .inr (.inl h)
    | elseArm => exact .inr (.inr h)
  | _ => cases arm <;> exact absurd h List.not_mem_nil

theorem mem_namesAll_of_find? {p : Position} {body : List Stmt} {s : Stmt}
    (hs : p.find? body = some s) (ha : a ∈ s.names) : a ∈ namesAll body := by
  induction p generalizing body with
  | here i => exact mem_namesAll.2 ⟨s, List.mem_of_getElem? hs, ha⟩
  | inArm i arm rest ih =>
    obtain ⟨s', hs', hrest⟩ := Option.bind_eq_some_iff.1 hs
    exact mem_namesAll.2 ⟨s', List.mem_of_getElem? hs', mem_names_of_arm (ih hrest)⟩

end Stmt

/-- An analysed block reads and writes only signals that its body names. -/
theorem UpdateBlock.mem_names_of_analyze {μ : Type} {block : UpdateBlock μ} {a : BlockAnalysis}
    (ha : block.analyze = .ok a) {s : SignalId} (hs : s ∈ a.access.reads ∨ s ∈ a.access.writes) :
    s ∈ Body.names block.body := by
  rcases hs with hs | hs
  · obtain ⟨p, st, hst, hs⟩ := (mem_reads_of_analyze ha).1 hs
    exact Stmt.mem_namesAll_of_find? hst (Stmt.mem_names_of_textReads hs)
  · obtain ⟨p, st, hst, hs⟩ := (mem_writes_of_analyze ha).1 hs
    exact Stmt.mem_namesAll_of_find? hst (Stmt.mem_names_of_textWrites hs)

end Cyclewise
