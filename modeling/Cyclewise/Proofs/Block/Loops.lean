import Mathlib.Data.List.Basic
import Cyclewise.Proofs.Block.Extraction
import Cyclewise.Proofs.Block.Position
import Cyclewise.Proofs.Block.Scan

/-!
# Loops of bodies

The scan of a body lists its loops as they stand in the text, at any depth of conditionals but not
inside one another (`Scan.loops_ofBody`).  An extraction therefore fails exactly when some body has a
loop, and then it reports all of them; otherwise it has one entry for each identifier
(`extract_loops`).
-/

namespace Cyclewise

namespace Stmt

/-- The kind and the place of a loop. -/
def loopSite? : Stmt → Option LoopSite
  | forLoop _ _ _ span => some ⟨.forLoop, span⟩
  | whileLoop _ _ span => some ⟨.whileLoop, span⟩
  | _ => none

mutual

/-- Whether a statement is a loop or contains one. -/
def hasLoop : Stmt → Bool
  | branch _ thenArm elseArm _ => hasLoopAll thenArm || hasLoopAll elseArm
  | forLoop .. | whileLoop .. => true
  | _ => false

/-- Whether a list of statements contains a loop. -/
def hasLoopAll : List Stmt → Bool
  | [] => false
  | s :: rest => hasLoop s || hasLoopAll rest

end

/-! ## The loops at the places of a body -/

/-- The loops among statements with positions. -/
def loopsAt (found : List (Position × Stmt)) : List LoopSite :=
  (pick loopSite? found).map Prod.snd

theorem loopsAt_append (found found' : List (Position × Stmt)) :
    loopsAt (found ++ found') = loopsAt found ++ loopsAt found' := by
  unfold loopsAt
  rw [pick_append, List.map_append]

theorem loopsAt_enter (i : Nat) (arm : Arm) (found : List (Position × Stmt)) :
    loopsAt (found.map (enter i arm)) = loopsAt found := by
  unfold loopsAt
  rw [pick_enter, List.map_map]
  rfl

theorem loopsAt_branch (i : Nat) (test : Expr) (thenArm elseArm : List Stmt) (span : Span) :
    loopsAt ((branch test thenArm elseArm span).places i) =
      loopsAt (placesAll 0 thenArm) ++ loopsAt (placesAll 0 elseArm) := by
  rw [places]
  show loopsAt (_ ++ _) = _
  rw [loopsAt_append, loopsAt_enter, loopsAt_enter]

mutual

theorem loopsAt_places_eq_nil (i : Nat) :
    ∀ s : Stmt, loopsAt (s.places i) = [] ↔ s.hasLoop = false
  | .branch test thenArm elseArm span => by
    rw [loopsAt_branch, List.append_eq_nil_iff, loopsAt_placesAll_eq_nil 0 thenArm,
      loopsAt_placesAll_eq_nil 0 elseArm, hasLoop, Bool.or_eq_false_iff]
  | .forLoop .. | .whileLoop .. => by simp [places, loopsAt, pick, loopSite?, hasLoop]
  | .assign .. | .update .. | .bind .. | .eval .. | .pass .. => by
    simp [places, loopsAt, pick, loopSite?, hasLoop]

/-- If there is a loop anywhere, there is one that stands in no other. -/
theorem loopsAt_placesAll_eq_nil (i : Nat) :
    ∀ body : List Stmt, loopsAt (placesAll i body) = [] ↔ hasLoopAll body = false
  | [] => by simp [placesAll, loopsAt, pick, hasLoopAll]
  | s :: rest => by
    rw [placesAll, loopsAt_append, List.append_eq_nil_iff, loopsAt_places_eq_nil i s,
      loopsAt_placesAll_eq_nil (i + 1) rest, hasLoopAll, Bool.or_eq_false_iff]

end

end Stmt

/-! ## The scan -/

namespace Scan

mutual

theorem loops_stmt (guards : SignalSet) (nested : Bool) (i : Nat) (scan : Scan) :
    ∀ s : Stmt, (scan.stmt guards nested s).loops = scan.loops ++ Stmt.loopsAt (s.places i)
  | .branch test thenArm elseArm span => by
    rw [stmt, loops_stmts true _ true 0, loops_stmts false _ true 0, Stmt.loopsAt_branch,
      ← List.append_assoc]
    rfl
  | .forLoop .. | .whileLoop .. => by
    rw [stmt]
    rfl
  | .assign .. | .update .. | .bind .. | .eval .. | .pass .. => by
    rw [stmt]
    exact (List.append_nil _).symm

/-- A scan adds the loops in the order of the text, whatever the numbers of the statements. -/
theorem loops_stmts (chained : Bool) (guards : SignalSet) (nested : Bool) (i : Nat) (scan : Scan) :
    ∀ body : List Stmt, (scan.stmts chained guards nested body).loops =
      scan.loops ++ Stmt.loopsAt (Stmt.placesAll i body)
  | [] => by
    rw [stmts]
    exact (List.append_nil _).symm
  | s :: rest => by
    rw [stmts, loops_stmts chained _ nested (i + 1), loops_stmt guards nested i, Stmt.placesAll,
      Stmt.loopsAt_append, List.append_assoc]

end

theorem loops_ofBody (body : Body) :
    (ofBody body).loops = (Stmt.listing Stmt.loopSite? body).map Prod.snd :=
  loops_stmts false ∅ false 0 empty body

theorem loops_ofBody_eq_nil {body : Body} :
    (ofBody body).loops = [] ↔ Stmt.hasLoopAll body = false := by
  rw [loops_ofBody]
  exact Stmt.loopsAt_placesAll_eq_nil 0 body

end Scan

variable {μ : Type}

namespace UpdateBlock

/-- A body without loops can be analysed. -/
theorem analyze_of_hasLoopAll {block : UpdateBlock μ} (h : Stmt.hasLoopAll block.body = false) :
    block.analyze = .ok ⟨(Scan.ofBody block.body).access, (Scan.ofBody block.body).dependencies⟩ := by
  unfold analyze
  simp only
  rw [Scan.loops_ofBody_eq_nil.2 h]
  rfl

theorem hasLoopAll_of_analyze {block : UpdateBlock μ} {a : BlockAnalysis}
    (h : block.analyze = .ok a) : Stmt.hasLoopAll block.body = false := by
  unfold analyze at h
  simp only at h
  split at h
  · next hempty => exact Scan.loops_ofBody_eq_nil.1 (List.isEmpty_iff.1 hempty)
  · cases h

end UpdateBlock

/-! ## Extraction -/

section

variable {blocks : List (BlockId × UpdateBlock μ)}

theorem loopsOf_eq (blocks : List (BlockId × UpdateBlock μ)) :
    loopsOf blocks = blocks.flatMap fun p =>
      (Stmt.listing Stmt.loopSite? p.2.body).map fun q => ⟨p.1, p.2.name, q.2⟩ := by
  unfold loopsOf
  refine List.flatMap_congr fun p _ => ?_
  have hmap : ∀ l : List (Position × LoopSite), (l.map fun q => LoopError.mk p.1 p.2.name q.2) =
      (l.map Prod.snd).map fun site => ⟨p.1, p.2.name, site⟩ := fun l => by
    rw [List.map_map]
    rfl
  rw [hmap, ← Scan.loops_ofBody]
  unfold UpdateBlock.analyze
  simp only
  by_cases hempty : (Scan.ofBody p.2.body).loops.isEmpty = true
  · rw [if_pos hempty, List.isEmpty_iff.1 hempty]
    rfl
  · rw [if_neg hempty]

theorem loopsOf_eq_nil : loopsOf blocks = [] ↔ ∀ p ∈ blocks, Stmt.hasLoopAll p.2.body = false := by
  rw [loopsOf_eq, List.flatMap_eq_nil_iff]
  refine forall₂_congr fun p _ => ?_
  rw [List.map_eq_nil_iff, ← List.map_eq_nil_iff (f := Prod.snd), ← Scan.loops_ofBody,
    Scan.loops_ofBody_eq_nil]

/-- **Loops are refused, all of them.**  If some body has a loop, an extraction fails with the loops
of all bodies that stand in no other loop, in the order of the blocks and of the text.  If none has,
it succeeds with one entry for each identifier. -/
theorem extract_loops (blocks : List (BlockId × UpdateBlock μ)) :
    ((∃ p ∈ blocks, Stmt.hasLoopAll p.2.body = true) →
      ∃ e, extract blocks = .error e ∧ ∃ loops : UpdateBlock μ → List (Position × LoopSite),
        (∀ block, Listing Stmt.loopSite? block.body (loops block)) ∧
        e.loops = blocks.flatMap fun p => (loops p.2).map fun q => ⟨p.1, p.2.name, q.2⟩) ∧
    ((∀ p ∈ blocks, Stmt.hasLoopAll p.2.body = false) →
      ∃ x, extract blocks = .ok x ∧ x.blocks.map Prod.fst = (blocks.map Prod.fst).eraseDups) := by
  constructor
  · rintro ⟨p, hp, hloop⟩
    have hne : loopsOf blocks ≠ [] := fun hnil => by
      rw [loopsOf_eq_nil.1 hnil p hp] at hloop
      cases hloop
    refine ⟨⟨loopsOf blocks⟩, ?_, fun block => Stmt.listing Stmt.loopSite? block.body,
      fun block => Stmt.listing_spec Stmt.loopSite? block.body, loopsOf_eq blocks⟩
    unfold extract
    simp only
    rw [if_neg (mt List.isEmpty_iff.1 hne)]
  · intro hfree
    have hall : ∀ p ∈ blocks, ∃ a, p.2.analyze = .ok a := fun p hp =>
      ⟨_, UpdateBlock.analyze_of_hasLoopAll (hfree p hp)⟩
    refine ⟨mergeAnalyses blocks, extract_of_analyzed hall, ?_⟩
    rw [← keys_mergeAnalyses hall]
    unfold Extraction.blocks OrderedMap.keys
    rw [List.map_map]
    rfl

end

end Cyclewise
