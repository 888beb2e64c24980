import Mathlib.Data.List.Basic
import Cyclewise.Proofs.Block.Trace
import Cyclewise.Proofs.Schedule.Batches
import Cyclewise.Tick

/-!
# Steps of a tick

Both forms of a tick run the list of its steps (`Procedure.run_eq`), which are those of the
scheduled blocks in order (`generate_eq_ok`).  The log of a run lists the trace of each block that
ran, up to the one that fails if there is one (`Step.runAll_of_fails`).  A run of all steps splits at
any of them (`Step.split_log`).  What it leaves in the store are the writes of the log
(`Step.runAll_replay`), and it leaves a net alone that none of them goes to (`Step.runAll_frame`).
-/

namespace Cyclewise

theorem exists_eq_ok {ε α : Type} {r : Except ε Unit × α} (h : r.1.isOk = true) :
    ∃ x, r = (.ok (), x) := by
  obtain ⟨outcome, x⟩ := r
  cases outcome with
  | ok u => exact ⟨x, rfl⟩
  | error e => cases h

variable {μ σ : Type} [SignalState σ]

namespace Step

/-- The reads and writes of a block in a cycle. -/
def trace (s : Step μ) (cycle : Nat) (m : Machine μ σ) : List Event :=
  (s.behavior s.block cycle m.memory).trace m.signals

/-- The traces of the blocks that run, up to the first failure. -/
def log (cycle : Nat) : List (Step μ) → Machine μ σ → List (BlockId × List Event)
  | [], _ => []
  | s :: rest, m =>
    (s.block, s.trace cycle m) ::
      match s.run cycle m with
      | (.ok (), m) => log cycle rest m
      | (.error _, _) => []

theorem runAll_cons_eq_ok {cycle : Nat} {s : Step μ} {rest : List (Step μ)} {m m' : Machine μ σ}
    (h : runAll cycle (s :: rest) m = (.ok (), m')) :
    ∃ m₁, s.run cycle m = (.ok (), m₁) ∧ runAll cycle rest m₁ = (.ok (), m') := by
  rw [runAll] at h
  split at h
  · next m₁ hs => exact ⟨m₁, hs, h⟩
  · cases h

theorem runAll_append (cycle : Nat) (xs ys : List (Step μ)) (m : Machine μ σ) :
    runAll cycle (xs ++ ys) m =
      match runAll cycle xs m with
      | (.ok (), m) => runAll cycle ys m
      | (.error e, m) => (.error e, m) := by
  induction xs generalizing m with
  | nil => rfl
  | cons s xs ih =>
    rw [List.cons_append, runAll, runAll]
    split
    · next m₁ hs => exact ih m₁
    · rfl

/-- In a successful run every block of the list is logged. -/
theorem map_fst_log {cycle : Nat} {steps : List (Step μ)} {m m' : Machine μ σ}
    (h : runAll cycle steps m = (.ok (), m')) :
    (log cycle steps m).map Prod.fst = steps.map Step.block := by
  induction steps generalizing m with
  | nil => rfl
  | cons s rest ih =>
    obtain ⟨m₁, hs, hrest⟩ := runAll_cons_eq_ok h
    rw [log, hs, List.map_cons, List.map_cons]
    exact congrArg (s.block :: ·) (ih hrest)

/-- Up to a failure, the blocks of the list are logged in order. -/
theorem map_fst_log_isPrefix (cycle : Nat) (steps : List (Step μ)) (m : Machine μ σ) :
    (log cycle steps m).map Prod.fst <+: steps.map Step.block := by
  induction steps generalizing m with
  | nil => exact List.prefix_refl _
  | cons s rest ih =>
    rw [log, List.map_cons, List.map_cons, List.cons_prefix_cons]
    refine ⟨rfl, ?_⟩
    split
    · next m₁ _ => exact ih m₁
    · exact List.nil_prefix

/-- A successful run, split at a logged block. -/
theorem split_log {cycle : Nat} {steps : List (Step μ)} {m m' : Machine μ σ}
    (h : runAll cycle steps m = (.ok (), m')) {b : BlockId} {events : List Event}
    (hb : (b, events) ∈ log cycle steps m) :
    ∃ before s after m₁ m₂, steps = before ++ s :: after ∧ s.block = b ∧
      runAll cycle before m = (.ok (), m₁) ∧ s.run cycle m₁ = (.ok (), m₂) ∧
      runAll cycle after m₂ = (.ok (), m') ∧ events = s.trace cycle m₁ ∧
      log cycle steps m = log cycle before m ++ (b, events) :: log cycle after m₂ := by
  induction steps generalizing m with
  | nil => cases hb
  | cons s rest ih =>
    obtain ⟨m₁, hs, hrest⟩ := runAll_cons_eq_ok h
    have hlog : log cycle (s :: rest) m = (s.block, s.trace cycle m) :: log cycle rest m₁ := by
      rw [log, hs]
    rw [hlog] at hb ⊢
    rcases List.mem_cons.1 hb with heq | hb
    · obtain ⟨rfl, rfl⟩ := Prod.mk.inj heq
      exact ⟨[], s, rest, m, m₁, rfl, rfl, rfl, hs, hrest, rfl, rfl⟩
    · obtain ⟨before, s', after, m₂, m₃, rfl, hblock, hbefore, hs', hafter, hevents, hsplit⟩ :=
        ih hrest hb
      refine ⟨s :: before, s', after, m₂, m₃, rfl, hblock, ?_, hs', hafter, hevents, ?_⟩
      · rw [runAll, hs]
        exact hbefore
      · rw [log, hs, hsplit]
        rfl

/-- If the steps before a step succeed and it fails, its failure is that of the run. -/
theorem runAll_of_fails {cycle : Nat} {before : List (Step μ)} {s : Step μ} {m m₁ m₂ : Machine μ σ}
    {e : StepError} (hbefore : runAll cycle before m = (.ok (), m₁))
    (hs : s.run cycle m₁ = (.error e, m₂)) (after : List (Step μ)) :
    runAll cycle (before ++ s :: after) m = (.error e, m₂) ∧
      (log cycle (before ++ s :: after) m).map Prod.fst =
        before.map Step.block ++ [s.block] := by
  induction before generalizing m with
  | nil =>
    obtain ⟨-, rfl⟩ := Prod.mk.inj hbefore
    rw [List.nil_append, runAll, log, hs]
    exact ⟨rfl, rfl⟩
  | cons t before ih =>
    obtain ⟨m₃, ht, hrest⟩ := runAll_cons_eq_ok hbefore
    obtain ⟨hrun, hlog⟩ := ih hrest
    rw [List.cons_append, runAll, log, ht]
    exact ⟨hrun, congrArg (t.block :: ·) hlog⟩

/-- A run that fails has a step that fails after others succeeded. -/
theorem exists_of_runAll_error {cycle : Nat} {steps : List (Step μ)} {m m₂ : Machine μ σ}
    {e : StepError} (h : runAll cycle steps m = (.error e, m₂)) :
    ∃ before s after m₁, steps = before ++ s :: after ∧ runAll cycle before m = (.ok (), m₁) ∧
      s.run cycle m₁ = (.error e, m₂) := by
  induction steps generalizing m with
  | nil => cases h
  | cons s rest ih =>
    rw [runAll] at h
    split at h
    · next m₁ hs =>
      obtain ⟨before, t, after, m₃, rfl, hbefore, ht⟩ := ih h
      refine ⟨s :: before, t, after, m₃, rfl, ?_, ht⟩
      rw [runAll, hs]
      exact hbefore
    · next e' m₁ hs =>
      obtain ⟨he, rfl⟩ := Prod.mk.inj h
      obtain rfl := Except.error.inj he
      exact ⟨[], s, rest, m, rfl, rfl, hs⟩

theorem run_signals (s : Step μ) (cycle : Nat) (m : Machine μ σ) :
    (s.run cycle m).2.signals = ((s.behavior s.block cycle m.memory).run m.signals).2 := by
  unfold run
  split
  · next h => rw [h]
  · next h => rw [h]

section

variable {m : Machine μ SignalStore} {n : NetId}

theorem run_updates (s : Step μ) (cycle : Nat) (m : Machine μ SignalStore) :
    m.signals.Updates (s.run cycle m).2.signals := by
  rw [run_signals]
  exact Program.run_updates _ _

/-- A run leaves the nets of signals alone. -/
theorem netOf_of_run {s : Step μ} {cycle : Nat} {m m' : Machine μ SignalStore}
    {outcome : Except StepError Unit} (h : s.run cycle m = (outcome, m')) :
    m'.signals.netOf = m.signals.netOf := by
  have hupdates := s.run_updates cycle m
  rw [h] at hupdates
  exact SignalStore.netOf_of_reset hupdates.reset_eq

theorem runAll_updates (cycle : Nat) (steps : List (Step μ)) (m : Machine μ SignalStore) :
    m.signals.Updates (runAll cycle steps m).2.signals := by
  induction steps generalizing m with
  | nil => exact .refl
  | cons s rest ih =>
    have hs := s.run_updates cycle m
    rw [runAll]
    split
    · next m₁ h =>
      rw [h] at hs
      exact hs.trans (ih m₁)
    · next e m₁ h =>
      rw [h] at hs
      exact hs

theorem runAll_reset (cycle : Nat) (steps : List (Step μ)) (m : Machine μ SignalStore) :
    (runAll cycle steps m).2.signals.reset = m.signals.reset :=
  (runAll_updates cycle steps m).reset_eq

/-- A run leaves a net alone that no logged write goes to. -/
theorem runAll_frame (cycle : Nat) (steps : List (Step μ)) (m : Machine μ SignalStore)
    (h : ∀ p ∈ log cycle steps m, Program.Avoids m.signals n p.2) :
    (runAll cycle steps m).2.signals.cell n = m.signals.cell n := by
  induction steps generalizing m with
  | nil => rfl
  | cons s rest ih =>
    rw [log] at h
    have hcell : (s.run cycle m).2.signals.cell n = m.signals.cell n := by
      rw [run_signals]
      exact (Program.run_frame _ _ (h _ List.mem_cons_self)).1
    rw [runAll]
    split
    · next m₁ hs =>
      rw [hs] at h hcell
      refine (ih m₁ fun p hp => ?_).trans hcell
      exact (h p (List.mem_cons_of_mem _ hp)).congr (netOf_of_run hs)
    · next e m₁ hs =>
      rw [hs] at hcell
      exact hcell

/-- What a run leaves in the store are the writes of its log. -/
theorem runAll_replay (cycle : Nat) (steps : List (Step μ)) (m : Machine μ SignalStore) :
    (runAll cycle steps m).2.signals =
      m.signals.replay ((log cycle steps m).flatMap Prod.snd) := by
  induction steps generalizing m with
  | nil => rfl
  | cons s rest ih =>
    have hs : (s.run cycle m).2.signals = m.signals.replay (s.trace cycle m) := by
      rw [run_signals]
      exact Program.run_replay _ _
    rw [runAll, log, List.flatMap_cons, SignalStore.replay_append, ← hs]
    -- the run of the first step decides whether the others run
    rcases s.run cycle m with ⟨_ | _, m₁⟩
    · rfl
    · exact ih m₁

theorem netOf_of_runAll {steps : List (Step μ)} {cycle : Nat} {m m' : Machine μ SignalStore}
    {outcome : Except StepError Unit} (h : runAll cycle steps m = (outcome, m')) :
    m'.signals.netOf = m.signals.netOf := by
  have hreset := runAll_reset cycle steps m
  rw [h] at hreset
  exact SignalStore.netOf_of_reset hreset

end

/-! ### What a block reads -/

section

variable {before after : List (Step μ)} {s : Step μ} {cycle : Nat} {m m' : Machine μ SignalStore}
  (hnodup : ((before ++ s :: after).map Step.block).Nodup) {p : BlockId × List Event}

include hnodup

/-- What is logged before a block is of earlier blocks. -/
theorem earlier_of_log_before (h : runAll cycle before m = (.ok (), m'))
    (hp : p ∈ log cycle before m) :
    Earlier ((before ++ s :: after).map Step.block) p.1 s.block := by
  have hmem : p.1 ∈ before.map Step.block := by
    rw [← map_fst_log h]
    exact List.mem_map_of_mem hp
  rw [List.map_append, List.map_cons] at hnodup ⊢
  exact earlier_append hnodup hmem List.mem_cons_self

/-- What is logged after a block is of later blocks. -/
theorem earlier_of_log_after (h : runAll cycle after m = (.ok (), m'))
    (hp : p ∈ log cycle after m) :
    Earlier ((before ++ s :: after).map Step.block) s.block p.1 := by
  have hmem : p.1 ∈ after.map Step.block := by
    rw [← map_fst_log h]
    exact List.mem_map_of_mem hp
  rw [List.map_append, List.map_cons, List.append_cons] at hnodup ⊢
  exact earlier_append hnodup (List.mem_append_right _ List.mem_cons_self) hmem

end

/-- What a block reads from a net that it leaves alone is the value before the run if no earlier
block writes the net, and the value after the run if no later one does. -/
theorem read_of_log {cycle : Nat} {steps : List (Step μ)} {m m' : Machine μ SignalStore} {n : NetId}
    (h : runAll cycle steps m = (.ok (), m')) (hnodup : (steps.map Step.block).Nodup)
    {b : BlockId} {events : List Event} (hb : (b, events) ∈ log cycle steps m)
    (hself : Program.Avoids m.signals n events) {t : SignalId} (ht : m.signals.net? t = some n)
    {found : Option UInt64} (hread : Event.read t found ∈ events) :
    ((∀ p ∈ log cycle steps m, Earlier (steps.map Step.block) p.1 b →
        Program.Avoids m.signals n p.2) → found = m.signals.read? t) ∧
    ((∀ p ∈ log cycle steps m, Earlier (steps.map Step.block) b p.1 →
        Program.Avoids m.signals n p.2) → found = m'.signals.read? t) := by
  obtain ⟨before, s, after, m₁, m₂, rfl, rfl, hbefore, hs, hafter, rfl, hlog⟩ := split_log h hb
  have hnet₁ : m₁.signals.netOf = m.signals.netOf := netOf_of_runAll hbefore
  have hnet₂ : m₂.signals.netOf = m.signals.netOf := (netOf_of_run hs).trans hnet₁
  have hnet' : m'.signals.netOf = m.signals.netOf := netOf_of_runAll h
  -- the block sees one value of the net, and leaves it
  obtain ⟨hcell, hreads⟩ := Program.run_frame _ _ (hself.congr hnet₁)
  rw [← run_signals, hs] at hcell
  have hfound := hreads t found hread ((SignalStore.net?_congr hnet₁ t).trans ht)
  have hsame : ∀ {m₃ : Machine μ SignalStore}, m₃.signals.netOf = m.signals.netOf →
      m₁.signals.cell n = m₃.signals.cell n → found = m₃.signals.read? t := by
    intro m₃ hnet₃ hcell₃
    refine hfound.trans (SignalStore.read?_congr (hnet₁.trans hnet₃.symm) fun k hk => ?_)
    rw [SignalStore.net?_congr hnet₃, ht] at hk
    obtain rfl := Option.some.inj hk
    exact hcell₃
  constructor
  · intro havoid
    have hframe := runAll_frame (n := n) cycle before m fun p hp =>
      havoid p (hlog ▸ List.mem_append_left _ hp) (earlier_of_log_before hnodup hbefore hp)
    rw [hbefore] at hframe
    exact hsame rfl hframe
  · intro havoid
    have hframe := runAll_frame (n := n) cycle after m₂ fun p hp => by
      have hp' : p ∈ log cycle (before ++ s :: after) m := by
        rw [hlog]
        exact List.mem_append_right _ (List.mem_cons_of_mem _ hp)
      exact (havoid p hp' (earlier_of_log_after hnodup hafter hp)).congr hnet₂
    rw [hafter] at hframe
    exact hsame hnet' (hframe.trans hcell).symm

end Step

/-! ## Fused steps -/

namespace Fused

theorem run_eq (cycle : Nat) (tree : Fused μ) (m : Machine μ σ) :
    tree.run cycle m = Step.runAll cycle tree.steps m := by
  induction tree generalizing m with
  | idle => rfl
  | leaf step =>
    rw [run, steps, Step.runAll]
    split
    · next m' h => rw [h, Step.runAll]
    · next e m' h => rw [h]
  | pair first second ih ih' =>
    rw [run, steps, Step.runAll_append, ih]
    cases Step.runAll cycle first.steps m with
    | mk outcome m' =>
      cases outcome with
      | ok u => exact ih' m'
      | error e => rfl

theorem steps_pairUp (trees : List (Fused μ)) :
    (pairUp trees).flatMap steps = trees.flatMap steps := by
  induction trees using pairUp.induct with
  | case1 first second rest ih =>
    rw [pairUp, List.flatMap_cons, ih, steps, List.flatMap_cons, List.flatMap_cons,
      List.append_assoc]
  | case2 rest h =>
    rw [pairUp]
    exact h

theorem steps_fuse (rounds : Nat) (trees : List (Fused μ)) :
    (fuse rounds trees).steps = trees.flatMap steps := by
  induction rounds, trees using fuse.induct with
  | case1 => simp [fuse, steps]
  | case2 => simp [fuse]
  | case3 trees h h' =>
    have hfold : ∀ trees : List (Fused μ),
        (trees.foldr pair idle).steps = trees.flatMap steps := by
      intro trees
      induction trees with
      | nil => rfl
      | cons tree trees ih => rw [List.foldr_cons, steps, ih, List.flatMap_cons]
    rw [fuse]
    · exact hfold trees
    · exact h
    · exact h'
  | case4 rounds trees h h' ih =>
    rw [fuse]
    · rw [ih, steps_pairUp]
    · exact h
    · exact h'

theorem steps_ofSteps (list : List (Step μ)) : (ofSteps list).steps = list := by
  unfold ofSteps
  rw [steps_fuse, List.flatMap_map]
  simp [steps]

end Fused

namespace Procedure

theorem steps_ofSteps (mode : TickMode) (list : List (Step μ)) :
    (ofSteps mode list).steps = list := by
  cases mode with
  | normal => rfl
  | unrolled => exact Fused.steps_ofSteps list

/-- Both forms run the list of steps. -/
theorem run_eq (cycle : Nat) (p : Procedure μ) (m : Machine μ σ) :
    p.run cycle m = Step.runAll cycle p.steps m := by
  cases p with
  | sequence list => rfl
  | fused tree => exact tree.run_eq cycle m

end Procedure

/-! ## The steps of a schedule -/

namespace Tick

variable {block? : BlockId → Option (UpdateBlock μ)}

/-- The steps of the blocks at hand. -/
def stepsOf (block? : BlockId → Option (UpdateBlock μ)) (order : List BlockId) : List (Step μ) :=
  order.filterMap fun b => (block? b).map fun block => ⟨b, block.name, block.behavior⟩

theorem mem_stepsOf {order : List BlockId} {s : Step μ} :
    s ∈ stepsOf block? order ↔ s.block ∈ order ∧
      ∃ block, block? s.block = some block ∧ s = ⟨s.block, block.name, block.behavior⟩ := by
  unfold stepsOf
  rw [List.mem_filterMap]
  constructor
  · rintro ⟨b, hb, h⟩
    obtain ⟨block, hblock, rfl⟩ := Option.map_eq_some_iff.1 h
    exact ⟨hb, block, hblock, rfl⟩
  · rintro ⟨hb, block, hblock, hs⟩
    exact ⟨s.block, hb, Option.map_eq_some_iff.2 ⟨block, hblock, hs.symm⟩⟩

theorem map_block_stepsOf {order : List BlockId} (h : ∀ b ∈ order, (block? b).isSome) :
    (stepsOf block? order).map Step.block = order := by
  unfold stepsOf
  rw [List.map_filterMap]
  refine (List.filterMap_congr fun b hb => ?_).trans (List.filterMap_some ..)
  obtain ⟨block, hblock⟩ := Option.isSome_iff_exists.1 (h b hb)
  rw [hblock]
  rfl

/-- The first steps are those of the first blocks. -/
theorem take_stepsOf {order : List BlockId} (h : ∀ b ∈ order, (block? b).isSome) (k : Nat) :
    (stepsOf block? order).take k = stepsOf block? (order.take k) := by
  induction order generalizing k with
  | nil => simp [stepsOf]
  | cons b order ih =>
    cases k with
    | zero => rfl
    | succ k =>
      obtain ⟨hb, hrest⟩ := List.forall_mem_cons.1 h
      obtain ⟨block, hblock⟩ := Option.isSome_iff_exists.1 hb
      have hcons : ∀ order, stepsOf block? (b :: order) =
          ⟨b, block.name, block.behavior⟩ :: stepsOf block? order := fun order =>
        List.filterMap_cons_some (by rw [hblock]; rfl)
      rw [hcons, List.take_succ_cons, List.take_succ_cons, hcons, ih hrest]

theorem mapM_step_eq_ok {order : List BlockId} {steps : List (Step μ)}
    (h : order.mapM (step block?) = .ok steps) :
    steps = stepsOf block? order ∧ ∀ b ∈ order, (block? b).isSome := by
  induction order generalizing steps with
  | nil =>
    obtain rfl := Except.ok.inj h
    refine ⟨rfl, fun b hb => ?_⟩
    cases hb
  | cons b order ih =>
    simp only [List.mapM_cons, bind, Except.bind] at h
    split at h
    · cases h
    · next s hs =>
      split at h
      · cases h
      · next rest hrest =>
        obtain ⟨rfl, hall⟩ := ih hrest
        obtain rfl := Except.ok.inj h
        unfold step at hs
        split at hs
        · next block hblock =>
          obtain rfl := Except.ok.inj hs
          refine ⟨?_, fun b' hb' => ?_⟩
          · unfold stepsOf
            rw [List.filterMap_cons, hblock]
            rfl
          · rcases List.mem_cons.1 hb' with rfl | hb'
            · rw [hblock]
              rfl
            · exact hall b' hb'
        · cases hs

theorem exists_mapM_step {order : List BlockId} (h : ∀ b ∈ order, (block? b).isSome) :
    ∃ steps : List (Step μ), order.mapM (step block?) = .ok steps := by
  induction order with
  | nil => exact ⟨[], rfl⟩
  | cons b order ih =>
    obtain ⟨block, hblock⟩ := Option.isSome_iff_exists.1 (h b List.mem_cons_self)
    obtain ⟨steps, hsteps⟩ := ih fun b' hb' => h b' (List.mem_cons_of_mem b hb')
    refine ⟨⟨b, block.name, block.behavior⟩ :: steps, ?_⟩
    simp only [List.mapM_cons, hsteps, step, hblock]
    rfl

/-- A tick holds the steps of the scheduled blocks. -/
theorem generate_eq_ok {s : Schedule} {mode : TickMode} {revision : Nat} {tick : Tick μ}
    (h : generate s block? mode revision = .ok tick) :
    tick.revision = revision ∧ tick.procedure.steps = stepsOf block? s.order ∧
      ∀ b ∈ s.order, (block? b).isSome := by
  simp only [generate, bind, Except.bind] at h
  split at h
  · cases h
  · split at h
    · cases h
    · next steps hsteps =>
      obtain rfl := Except.ok.inj h
      obtain ⟨rfl, hall⟩ := mapM_step_eq_ok hsteps
      exact ⟨rfl, Procedure.steps_ofSteps mode _, hall⟩

/-- A tick depends on the order of the blocks only, apart from the revision that it remembers. -/
theorem generate_of_order {s s' : Schedule} (h : s'.order = s.order) (mode : TickMode)
    (revision revision' : Nat) :
    generate s' block? mode revision' =
      (generate s block? mode revision).map fun tick => { tick with revision := revision' } := by
  unfold generate Schedule.isEmpty
  rw [h]
  cases s.order.isEmpty with
  | true => rfl
  | false =>
    simp only [bind, Except.bind, Bool.false_eq_true, if_false]
    cases s.order.mapM (step block?) with
    | error e => rfl
    | ok steps => rfl

/-- Blocks at hand make a tick, unless there are none. -/
theorem generate_eq_error_iff {s : Schedule} (h : ∀ b ∈ s.order, (block? b).isSome)
    {mode : TickMode} {revision : Nat} {e : GenerateError} :
    generate s block? mode revision = .error e ↔ e = .emptySchedule ∧ s.order = [] := by
  obtain ⟨steps, hsteps⟩ := exists_mapM_step h
  unfold generate Schedule.isEmpty
  cases horder : s.order with
  | nil => exact ⟨fun heq => ⟨(Except.error.inj heq).symm, rfl⟩, fun ⟨heq, _⟩ => heq ▸ rfl⟩
  | cons b order =>
    rw [horder] at hsteps
    simp only [bind, Except.bind, hsteps]
    exact ⟨fun heq => (by cases heq), fun ⟨_, hnil⟩ => (by cases hnil)⟩

theorem exists_generate {s : Schedule} (h : ∀ b ∈ s.order, (block? b).isSome)
    (hne : s.order ≠ []) (mode : TickMode) (revision : Nat) :
    ∃ tick, generate s block? mode revision = .ok tick := by
  cases hgenerate : generate s block? mode revision with
  | ok tick => exact ⟨tick, rfl⟩
  | error e => exact absurd ((generate_eq_error_iff h).1 hgenerate).2 hne

end Tick

end Cyclewise
