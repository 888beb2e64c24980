import Mathlib.Data.List.Forall2
import Mathlib.Data.List.Sort
import Cyclewise.Proofs.Block.Footprint

/-!
# The dependencies of a body

In a body that uses no locals, an assignment depends on what stands in its text to be read and on
the tests that guard it: those of the conditionals around it and, wherever it is inside an else arm,
those of earlier conditionals directly in that arm (`Tested`).  A scan carries all guards as one set;
it is matched with the place of each statement by going down into the arms
(`Scan.induced_stmts`).  So the dependencies of a body can be read off its text
(`UpdateBlock.dependencies_exact`).
-/

namespace Cyclewise

variable {μ : Type}

/-- What an assignment reads and writes by its text, and where it stands. -/
structure Assignment where
  reads : List SignalId
  writes : List SignalId
  span : Span

namespace Stmt

/-- What an assignment reads and writes by its text; an update reads its own targets too. -/
def assignment? (s : Stmt) : Option Assignment :=
  match s with
  | assign _ _ span | update _ _ _ span => some ⟨s.textReads, s.textWrites, span⟩
  | _ => none

/-- The signals that stand in the test of a conditional. -/
def testReads : Stmt → List SignalId
  | branch test _ _ _ => test.textReads
  | _ => []

section

variable {s : Stmt} (h : s.locals = []) {τ : Taints} {a : SignalId}

include h

theorem mem_reads_iff_textReads : a ∈ s.reads τ ↔ a ∈ s.textReads := by
  rw [mem_reads, h]
  simp

theorem mem_guardReads_iff_testReads : a ∈ s.guardReads τ ↔ a ∈ s.testReads := by
  cases s with
  | branch test thenArm elseArm span => exact mem_reads_iff_textReads h
  | _ => exact iff_of_false (SignalSet.not_mem_empty a) List.not_mem_nil

end

end Stmt

/-- Whether the conditionals directly in an arm guard the statements after them there. -/
def Arm.chained : Arm → Bool
  | thenArm => false
  | elseArm => true

/-- The signal is read by a test that guards the place in the body.  Where `chained` holds, the body
is an else arm. -/
inductive Tested (r : SignalId) : (chained : Bool) → List Stmt → Position → Prop where
  /-- The test of a conditional guards its arms. -/
  | around {chained : Bool} {body : List Stmt} {i : Nat} {s : Stmt} {arm : Arm} {p : Position}
    (hs : body[i]? = some s) (hr : r ∈ s.testReads) : Tested r chained body (.inArm i arm p)
  /-- In an else arm it guards the statements after the conditional too. -/
  | earlier {body : List Stmt} {s : Stmt} {p : Position}
    (hs : s ∈ body.take p.index) (hr : r ∈ s.testReads) : Tested r true body p
  /-- What guards a statement within an arm guards it within the whole. -/
  | inside {chained : Bool} {body : List Stmt} {i : Nat} {s : Stmt} {arm : Arm} {p : Position}
    (hs : body[i]? = some s) (h : Tested r arm.chained (s.arm arm) p) :
    Tested r chained body (.inArm i arm p)

/-- `found` lists the dependencies of an assignment on its own reads and on the reads of guards,
ordered by what is read and then by what is written. -/
structure Induces (guard : SignalId → Prop) (a : Assignment) (found : List Dependency) : Prop where
  mem : ∀ d, d ∈ found ↔
    (d.read ∈ a.reads ∨ guard d.read) ∧ d.written ∈ a.writes ∧ d.read ≠ d.written ∧ d.span = a.span
  ordered : found.Pairwise Dependency.Less

theorem Dependency.Less.asymm {d d' : Dependency} (h : d.Less d') : ¬ d'.Less d := by
  grind [Dependency.Less]

/-- An assignment under guards has one list of dependencies. -/
theorem Induces.unique {guard : SignalId → Prop} {a : Assignment} {found found' : List Dependency}
    (h : Induces guard a found) (h' : Induces guard a found') : found = found' := by
  have : Std.Asymm Dependency.Less := ⟨fun _ _ => Dependency.Less.asymm⟩
  exact h.ordered.eq_of_mem_iff h'.ordered fun d => by rw [h.mem, h'.mem]

/-! ## Guards -/

section

variable {r : SignalId} {chained : Bool} {body : List Stmt} {i : Nat}

/-- The signal is read by the test of one of the first `i` statements, and these guard the others. -/
def TestedBefore (r : SignalId) (chained : Bool) (body : List Stmt) (i : Nat) : Prop :=
  chained = true ∧ ∃ s ∈ body.take i, r ∈ s.testReads

theorem tested_here : Tested r chained body (.here i) ↔ TestedBefore r chained body i := by
  constructor
  · intro h
    cases h with
    | earlier hs hr => exact ⟨rfl, _, hs, hr⟩
  · rintro ⟨rfl, s, hs, hr⟩
    exact .earlier hs hr

theorem tested_inArm {s : Stmt} {arm : Arm} {p : Position} (hs : body[i]? = some s) :
    Tested r chained body (.inArm i arm p) ↔
      (TestedBefore r chained body i ∨ r ∈ s.testReads) ∨ Tested r arm.chained (s.arm arm) p := by
  constructor
  · intro h
    cases h with
    | around hs' hr =>
      rw [hs] at hs'
      cases hs'
      exact .inl (.inr hr)
    | earlier hs' hr => exact .inl (.inl ⟨rfl, _, hs', hr⟩)
    | inside hs' h =>
      rw [hs] at hs'
      cases hs'
      exact .inr h
  · rintro ((⟨rfl, _, hs', hr⟩ | hr) | h)
    · exact .earlier hs' hr
    · exact .around hs hr
    · exact .inside hs h

theorem testedBefore_succ {s : Stmt} (hs : body[i]? = some s) :
    TestedBefore r chained body (i + 1) ↔
      TestedBefore r chained body i ∨ chained = true ∧ r ∈ s.testReads := by
  unfold TestedBefore
  rw [List.take_add_one, hs, ← and_or_left]
  simp [or_and_right, exists_or]

end

namespace Scan

/-! ## What a scan adds -/

/-- From one scan to a later one come the dependencies of the assignments among the statements
found. -/
def Induced (guard : Position → SignalId → Prop) (found : List (Position × Stmt))
    (scan scan' : Scan) : Prop :=
  ∃ pieces, List.Forall₂ (fun q => Induces (guard q.1) q.2) (Stmt.pick Stmt.assignment? found)
    pieces ∧ scan'.dependencies = scan.dependencies ++ pieces.flatten

namespace Induced

variable {guard : Position → SignalId → Prop} {found found' : List (Position × Stmt)}
  {scan scan' scan'' : Scan}

theorem of_pick_eq_nil (hfound : Stmt.pick Stmt.assignment? found = [])
    (h : scan'.dependencies = scan.dependencies) : Induced guard found scan scan' := by
  refine ⟨[], ?_, by rw [h, List.flatten_nil, List.append_nil]⟩
  rw [hfound]
  exact .nil

theorem append (h : Induced guard found scan scan') (h' : Induced guard found' scan' scan'') :
    Induced guard (found ++ found') scan scan'' := by
  obtain ⟨pieces, hpieces, heq⟩ := h
  obtain ⟨pieces', hpieces', heq'⟩ := h'
  refine ⟨pieces ++ pieces', ?_, ?_⟩
  · rw [Stmt.pick_append]
    exact List.rel_append hpieces hpieces'
  · rw [heq', heq, List.flatten_append, List.append_assoc]

theorem enter {guard' : Position → SignalId → Prop} (h : Induced guard' found scan scan') (i : Nat)
    (arm : Arm) (hguard : ∀ p r, guard' p r ↔ guard (.inArm i arm p) r) :
    Induced guard (found.map (Stmt.enter i arm)) scan scan' := by
  obtain ⟨pieces, hpieces, heq⟩ := h
  refine ⟨pieces, ?_, heq⟩
  rw [Stmt.pick_enter, List.forall₂_map_left_iff]
  refine hpieces.imp fun q piece hq => ?_
  have hsame : guard' q.1 = guard (.inArm i arm q.1) := funext fun r => propext (hguard q.1 r)
  exact hsame ▸ hq

end Induced

theorem induces_record {guards own : SignalSet} {a : Assignment} {guard : SignalId → Prop}
    (hown : ∀ r, r ∈ own ↔ r ∈ a.reads) (hguards : ∀ r, r ∈ guards ↔ guard r) (scan : Scan) :
    ∃ piece, Induces guard a piece ∧
      (scan.record (own ∪ guards) (SignalSet.ofList a.writes) a.span).dependencies =
        scan.dependencies ++ piece := by
  obtain ⟨piece, heq, hordered, hmem⟩ :=
    exists_record scan (own ∪ guards) (SignalSet.ofList a.writes) a.span
  refine ⟨piece, ⟨fun d => ?_, hordered⟩, heq⟩
  rw [hmem, SignalSet.mem_union, hown, hguards, SignalSet.mem_ofList]

/-- An assignment without locals depends on what stands in its text to be read and on its guards. -/
theorem induced_record {guards : SignalSet} {guard : Position → SignalId → Prop} {s : Stmt}
    {span : Span} (hs : s.assignment? = some ⟨s.textReads, s.textWrites, span⟩)
    (hlocals : s.locals = []) {p : Position} (hguards : ∀ r, r ∈ guards ↔ guard p r)
    (scan : Scan) : Induced guard [(p, s)] scan
      (scan.record (s.reads scan.taints ∪ guards) (SignalSet.ofList s.textWrites) span) := by
  obtain ⟨piece, hpiece, heq⟩ :=
    induces_record (a := ⟨s.textReads, s.textWrites, span⟩)
      (fun r => Stmt.mem_reads_iff_textReads hlocals) hguards scan
  refine ⟨[piece], ?_, by rw [heq, List.flatten_singleton]⟩
  have hpick : Stmt.pick Stmt.assignment? [(p, s)] = [(p, ⟨s.textReads, s.textWrites, span⟩)] := by
    simp [Stmt.pick, hs]
  rw [hpick]
  exact .cons hpiece .nil

mutual

theorem induced_stmt {guards : SignalSet} (nested : Bool) {chained : Bool} {body : List Stmt}
    {outer : SignalId → Prop} {i : Nat}
    (hguards : ∀ r, r ∈ guards ↔ outer r ∨ TestedBefore r chained body i) (scan : Scan) :
    ∀ s : Stmt, body[i]? = some s → (∀ q ∈ s.places i, q.2.locals = []) →
      Induced (fun p r => outer r ∨ Tested r chained body p) (s.places i) scan
        (scan.stmt guards nested s)
  | .assign targets value span, _, hlocals => by
    rw [stmt]
    exact induced_record rfl (hlocals _ (Stmt.here_mem_places i _))
      (fun r => by rw [hguards, tested_here]) scan
  | .update target op value span, _, hlocals => by
    rw [stmt]
    exact induced_record rfl (hlocals _ (Stmt.here_mem_places i _))
      (fun r => by rw [hguards, tested_here]) scan
  | .branch test thenArm elseArm span, hs, hlocals => by
    have htest : ∀ r, r ∈ test.reads scan.taints ↔
        r ∈ (Stmt.branch test thenArm elseArm span).testReads := fun r =>
      Stmt.mem_guardReads_iff_testReads (hlocals _ (Stmt.here_mem_places i _))
    -- in the arms, the guards of the conditional and its test are what is around
    have hinner : ∀ c arm r, r ∈ guards ∪ test.reads scan.taints ↔
        r ∈ guards ∪ test.reads scan.taints ∨ TestedBefore r c arm 0 := fun c arm r => by
      simp [TestedBefore]
    have houter : ∀ arm p r, (r ∈ guards ∪ test.reads scan.taints ∨
        Tested r arm.chained ((Stmt.branch test thenArm elseArm span).arm arm) p) ↔
          outer r ∨ Tested r chained body (.inArm i arm p) := fun arm p r => by
      rw [tested_inArm hs, SignalSet.mem_union, hguards, htest, or_assoc, or_assoc, or_assoc]
    have harm : ∀ arm, ∀ q ∈ Stmt.placesAll 0 ((Stmt.branch test thenArm elseArm span).arm arm),
        q.2.locals = [] := fun arm q hq =>
      hlocals (Stmt.enter i arm q) (Stmt.mem_places.2 (.inr ⟨arm, q.1, rfl, hq⟩))
    have htested : Induced (fun p r => outer r ∨ Tested r chained body p)
        [(.here i, .branch test thenArm elseArm span)] scan
        (scan.observe (test.reads scan.taints)) := .of_pick_eq_nil rfl rfl
    have hthen : Induced (fun p r => outer r ∨ Tested r chained body p)
        ((Stmt.placesAll 0 thenArm).map (Stmt.enter i .thenArm)) _ _ :=
      (induced_stmts true (hinner false thenArm) (scan.observe (test.reads scan.taints)) thenArm
        List.drop_zero (harm .thenArm)).enter i .thenArm (houter .thenArm)
    rw [stmt, Stmt.places]
    refine htested.append (hthen.append ?_)
    exact (induced_stmts true (hinner true elseArm) _ elseArm
      List.drop_zero (harm .elseArm)).enter i .elseArm (houter .elseArm)
  | .bind .., _, _ | .eval .., _, _ | .pass .., _, _ | .forLoop .., _, _ | .whileLoop .., _, _ => by
    rw [stmt]
    exact .of_pick_eq_nil rfl rfl

theorem induced_stmts {guards : SignalSet} (nested : Bool) {chained : Bool} {body : List Stmt}
    {outer : SignalId → Prop} {i : Nat}
    (hguards : ∀ r, r ∈ guards ↔ outer r ∨ TestedBefore r chained body i) (scan : Scan) :
    ∀ rest : List Stmt, body.drop i = rest → (∀ q ∈ Stmt.placesAll i rest, q.2.locals = []) →
      Induced (fun p r => outer r ∨ Tested r chained body p) (Stmt.placesAll i rest) scan
        (scan.stmts chained guards nested rest)
  | [], _, _ => by
    rw [stmts]
    exact .of_pick_eq_nil rfl rfl
  | s :: rest, hrest, hlocals => by
    have hs : body[i]? = some s := by
      rw [← Nat.add_zero i, ← List.getElem?_drop, hrest, List.getElem?_cons_zero]
    have hrest' : body.drop (i + 1) = rest := by
      rw [← List.tail_drop, hrest, List.tail_cons]
    rw [Stmt.placesAll] at hlocals ⊢
    rw [stmts]
    have hself : s.locals = [] := hlocals _ (List.mem_append_left _ (Stmt.here_mem_places i s))
    refine (induced_stmt nested hguards scan s hs
      fun q hq => hlocals q (List.mem_append_left _ hq)).append
      (induced_stmts nested (fun r => ?_) _ rest hrest'
        fun q hq => hlocals q (List.mem_append_right _ hq))
    rw [testedBefore_succ hs, ← or_assoc, ← hguards]
    cases chained with
    | true => simp [Stmt.mem_guardReads_iff_testReads hself]
    | false => simp

end

end Scan

/-- **The dependencies of a body are those of its text.**  Where nothing loops and no local is used,
an analysis succeeds, and it lists the dependencies of all assignments in the order of the text:
each on what stands in it to be read and on the tests that guard its place, and no other. -/
theorem UpdateBlock.dependencies_exact {block : UpdateBlock μ}
    (hfree : Stmt.hasLoopAll block.body = false)
    (hlocals : ∀ p s, Position.find? p block.body = some s → s.locals = []) :
    ∃ a, block.analyze = .ok a ∧ ∃ assignments pieces,
      Listing Stmt.assignment? block.body assignments ∧
      List.Forall₂ (fun q => Induces (Tested · false block.body q.1) q.2) assignments pieces ∧
      a.dependencies = pieces.flatten := by
  have hguards : ∀ r, r ∈ (∅ : SignalSet) ↔ False ∨ TestedBefore r false block.body 0 := fun r => by
    simp [TestedBefore]
  obtain ⟨pieces, hpieces, heq⟩ := Scan.induced_stmts false hguards Scan.empty block.body
    List.drop_zero fun q hq => hlocals q.1 q.2 (Stmt.mem_placesAll_zero.1 hq)
  refine ⟨_, analyze_of_hasLoopAll hfree, _, pieces, Stmt.listing_spec _ _, ?_, heq⟩
  simp only [false_or] at hpieces
  exact hpieces

/-- An alternative test guards what comes after it in its else arm, but nothing after the outer
conditional. -/
def cascade : UpdateBlock Unit where
  name := "cascade"
  body :=
    [.branch (.read ⟨0⟩)
      [.set ⟨5⟩ (.read ⟨1⟩) ⟨2, 4⟩]
      [.branch (.read ⟨2⟩) [.set ⟨6⟩ (.const 0) ⟨4, 4⟩] [] ⟨3, 0⟩,
        .set ⟨7⟩ (.read ⟨3⟩) ⟨5, 4⟩] ⟨1, 0⟩,
      .update (Access.one ⟨4⟩) .add (.read ⟨8⟩) ⟨6, 0⟩]
  behavior := fun _ _ memory => .done (.ok (), memory)

/-- Four assignments, the third of which is guarded by both tests and the last by none. -/
theorem cascade_dependencies : ∃ a assignments pieces, cascade.analyze = .ok a ∧
    Listing Stmt.assignment? cascade.body assignments ∧
    List.Forall₂ (fun q => Induces (Tested · false cascade.body q.1) q.2) assignments pieces ∧
    a.dependencies = pieces.flatten ∧
    a.dependencies.map (fun d => (d.read.index, d.written.index)) =
      [(0, 5), (1, 5), (0, 6), (2, 6), (0, 7), (2, 7), (3, 7), (8, 4)] := by
  have hlocals : ∀ q ∈ Stmt.placesAll 0 cascade.body, q.2.locals = [] := by decide
  obtain ⟨a, ha, assignments, pieces, hlisting, hpieces, heq⟩ :=
    UpdateBlock.dependencies_exact (by decide)
      fun p s hs => hlocals (p, s) (Stmt.mem_placesAll_zero.2 hs)
  refine ⟨a, assignments, pieces, ha, hlisting, hpieces, heq, ?_⟩
  rw [(UpdateBlock.analyze_eq_ok ha).2]
  decide

end Cyclewise
