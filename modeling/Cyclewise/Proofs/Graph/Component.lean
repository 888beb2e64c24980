import Mathlib.Data.List.Sort
import Cyclewise.Proofs.Graph.Search

/-!
# Strongly connected components

Each step of the search takes one unit of `work`, of which there is one for each node and each edge,
so that a whole search ends within its effort.  It ends with every node in a component found, and
`components` lists exactly the components, by ascending smallest node (`mem_components`,
`components_ascend`), with each node in one of them (`components_partition`).
-/

namespace Cyclewise

namespace DiGraph

namespace Search

/-- What a step does. -/
theorem step_cases (g : DiGraph) (s : Search) :
    (s.visits = [] ∧ s.step g = s) ∨
    (∃ v low w pending visits, s.visits = ⟨v, low, w :: pending⟩ :: visits ∧
      ((s.number? w = none ∧
          s.step g = enter g { s with visits := ⟨v, low, pending⟩ :: visits } w) ∨
        ∃ i, s.number? w = some i ∧
          ((w ∈ s.stack ∧ s.step g = lower { s with visits := ⟨v, low, pending⟩ :: visits } i) ∨
            (w ∉ s.stack ∧ s.step g = { s with visits := ⟨v, low, pending⟩ :: visits })))) ∨
    ∃ v low visits, s.visits = ⟨v, low, []⟩ :: visits ∧
      ((s.number? v = some low ∧
          s.step g = complete (lower { s with visits := visits } low) v) ∨
        (s.number? v ≠ some low ∧ s.step g = lower { s with visits := visits } low)) := by
  cases hvisits : s.visits with
  | nil =>
    refine .inl ⟨rfl, ?_⟩
    simp only [step, hvisits]
  | cons visit visits =>
    obtain ⟨v, low, pending⟩ := visit
    cases pending with
    | nil =>
      refine .inr (.inr ⟨v, low, visits, rfl, ?_⟩)
      have hstep : s.step g = if s.number? v = some low
          then complete (lower { s with visits := visits } low) v
          else lower { s with visits := visits } low := by
        simp only [step, hvisits]
        rfl
      rw [hstep]
      by_cases hlow : s.number? v = some low
      · exact .inl ⟨hlow, if_pos hlow⟩
      · exact .inr ⟨hlow, if_neg hlow⟩
    | cons w pending =>
      refine .inr (.inl ⟨v, low, w, pending, visits, rfl, ?_⟩)
      cases hnumber : s.number? w with
      | none =>
        have hnew : number? { s with visits := ⟨v, low, pending⟩ :: visits } w = none := hnumber
        refine .inl ⟨rfl, ?_⟩
        simp only [step, hvisits, hnew]
      | some i =>
        have hold : number? { s with visits := ⟨v, low, pending⟩ :: visits } w = some i := hnumber
        refine .inr ⟨i, rfl, ?_⟩
        simp only [step, hvisits, hold]
        by_cases hw : w ∈ s.stack
        · exact .inl ⟨hw, if_pos hw⟩
        · exact .inr ⟨hw, if_neg hw⟩

/-- A step keeps the invariant. -/
theorem Inv.step {g : DiGraph} (hg : g.Closed) {s : Search} (h : Inv g s) : Inv g (s.step g) := by
  rcases step_cases g s with ⟨-, hstep⟩ | ⟨v, low, w, pending, visits, hvisits, hcases⟩ |
      ⟨v, low, visits, hvisits, hcases⟩
  · rw [hstep]
    exact h
  · rcases hcases with ⟨hnew, hstep⟩ | ⟨i, hi, ⟨hw, hstep⟩ | ⟨hw, hstep⟩⟩
    · rw [hstep]
      exact h.look_new hvisits (h.lt_size_of_pending hg hvisits) hnew
    · rw [hstep]
      exact h.look_stacked hvisits hi hw
    · rw [hstep]
      exact h.look_found hvisits hi hw
  · rcases hcases with ⟨hlow, hstep⟩ | ⟨hlow, hstep⟩
    · rw [hstep]
      exact h.end_complete hvisits hlow
    · rw [hstep]
      exact h.end_absorbed hvisits hlow

/-- Entered nodes stay entered. -/
theorem isSome_number?_step {g : DiGraph} {s : Search} {z : Nat} (h : (s.number? z).isSome) :
    ((s.step g).number? z).isSome := by
  rcases step_cases g s with ⟨-, hstep⟩ | ⟨v, low, w, pending, visits, -, hcases⟩ |
      ⟨v, low, visits, -, hcases⟩
  · rw [hstep]
    exact h
  · rcases hcases with ⟨-, hstep⟩ | ⟨i, -, ⟨-, hstep⟩ | ⟨-, hstep⟩⟩
    · rw [hstep]
      exact number?_enter_of_isSome h
    · rw [hstep]
      exact h
    · rw [hstep]
      exact h
  · rcases hcases with ⟨-, hstep⟩ | ⟨-, hstep⟩
    · rw [hstep]
      exact h
    · rw [hstep]
      exact h

/-! ## Work -/

/-- The nodes that are not entered. -/
def unseen (g : DiGraph) (s : Search) : List Nat :=
  (List.range g.size).filter fun v => s.number? v = none

/-- The steps to take until visits end, if nothing new is entered. -/
def owed : List Visit → Nat
  | [] => 0
  | visit :: visits => visit.pending.length + 1 + owed visits

/-- The steps to take: those of the nodes not entered, and those of the visits under way. -/
def work (g : DiGraph) (s : Search) : Nat := cost g (unseen g s) + owed s.visits

theorem owed_cons (v low : Nat) (pending : List Nat) (visits : List Visit) :
    owed (⟨v, low, pending⟩ :: visits) = pending.length + 1 + owed visits := rfl

/-- The order of visits does not matter for what they cost. -/
theorem cost_perm (g : DiGraph) {vs ws : List Nat} (h : vs.Perm ws) : cost g vs = cost g ws := by
  induction h with
  | nil => rfl
  | cons v _ ih => rw [cost, cost, ih]
  | swap v w vs =>
    simp only [cost]
    omega
  | trans _ _ ih ih' => exact ih.trans ih'

theorem cost_filter_le (g : DiGraph) (p : Nat → Bool) (vs : List Nat) :
    cost g (vs.filter p) ≤ cost g vs := by
  induction vs with
  | nil => exact Nat.le_refl _
  | cons v vs ih =>
    rw [List.filter_cons, cost]
    split
    · rw [cost]
      omega
    · omega

theorem Consistent.cost_unseen_enter {g : DiGraph} {s : Search} (h : Consistent g s) {v : Nat}
    (hv : v < g.size) (hnew : s.number? v = none) :
    cost g (unseen g s) = (g.succ v).length + 1 + cost g (unseen g (s.enter g v)) := by
  have hperm : (unseen g s).Perm (v :: unseen g (s.enter g v)) := by
    unfold unseen
    refine (List.perm_ext_iff_of_nodup (List.nodup_range.filter _)
      (List.nodup_cons.2 ⟨?_, List.nodup_range.filter _⟩)).2 fun w => ?_
    · simp [h.number?_enter_self hv]
    · simp only [List.mem_cons, List.mem_filter, List.mem_range, decide_eq_true_eq,
        number?_enter (h.size ▸ hv)]
      by_cases hwv : w = v
      · subst hwv
        simp [hv, hnew]
      · simp [hwv]
  rw [cost_perm g hperm, cost]

theorem Consistent.work_enter {g : DiGraph} {s : Search} (h : Consistent g s) {v : Nat}
    (hv : v < g.size) (hnew : s.number? v = none) : work g (s.enter g v) = work g s := by
  have hcost := h.cost_unseen_enter hv hnew
  have howed : owed (s.enter g v).visits = (g.succ v).length + 1 + owed s.visits := owed_cons ..
  unfold work
  omega

theorem work_lower (g : DiGraph) (s : Search) (i : Nat) : work g (s.lower i) = work g s := by
  obtain ⟨number, next, stack, visits, found⟩ := s
  cases visits <;> rfl

theorem work_complete (g : DiGraph) (s : Search) (v : Nat) : work g (s.complete v) = work g s := rfl

theorem work_withVisits (g : DiGraph) (s : Search) (visits : List Visit) :
    work g { s with visits := visits } = cost g (unseen g s) + owed visits := rfl

/-- A step takes one unit of work. -/
theorem Inv.work_step {g : DiGraph} (hg : g.Closed) {s : Search} (h : Inv g s)
    (hvisits : s.visits ≠ []) : work g (s.step g) + 1 = work g s := by
  have hwork : work g s = cost g (unseen g s) + owed s.visits := rfl
  rcases step_cases g s with ⟨hnil, -⟩ | ⟨v, low, w, pending, visits, heq, hcases⟩ |
      ⟨v, low, visits, heq, hcases⟩
  · exact absurd hnil hvisits
  · have hone : work g { s with visits := ⟨v, low, pending⟩ :: visits } + 1 = work g s := by
      rw [hwork, heq, work_withVisits, owed_cons, owed_cons, List.length_cons]
      omega
    rcases hcases with ⟨hnew, hstep⟩ | ⟨i, -, ⟨-, hstep⟩ | ⟨-, hstep⟩⟩
    · have hw := h.lt_size_of_pending hg heq
      rw [hstep, (h.withVisits (⟨v, low, pending⟩ :: visits)).work_enter hw hnew]
      exact hone
    · rw [hstep, work_lower]
      exact hone
    · rw [hstep]
      exact hone
  · have hone : work g (lower { s with visits := visits } low) + 1 = work g s := by
      rw [work_lower, hwork, heq, work_withVisits, owed_cons, List.length_nil]
      omega
    rcases hcases with ⟨-, hstep⟩ | ⟨-, hstep⟩
    · rw [hstep, work_complete]
      exact hone
    · rw [hstep]
      exact hone

/-! ## Runs -/

theorem run_of_visits_eq_nil (g : DiGraph) {s : Search} (h : s.visits = []) (n : Nat) :
    run g n s = s := by
  induction n with
  | zero => rfl
  | succ n ih =>
    have hstep : s.step g = s := by simp only [step, h]
    rw [run, hstep, ih]

theorem isSome_number?_run {g : DiGraph} {s : Search} {z : Nat} (h : (s.number? z).isSome)
    (n : Nat) : ((run g n s).number? z).isSome := by
  induction n generalizing s with
  | zero => exact h
  | succ n ih => exact ih (isSome_number?_step h)

/-- With as many steps as there is work, all visits come to their end. -/
theorem Inv.run {g : DiGraph} (hg : g.Closed) {s : Search} (h : Inv g s) {n : Nat}
    (hn : work g s ≤ n) : Inv g (run g n s) ∧ (run g n s).visits = [] := by
  induction n generalizing s with
  | zero =>
    refine ⟨h, ?_⟩
    cases hvisits : s.visits with
    | nil => exact hvisits
    | cons visit visits =>
      unfold work at hn
      rw [hvisits, owed_cons] at hn
      omega
  | succ n ih =>
    by_cases hvisits : s.visits = []
    · rw [run_of_visits_eq_nil g hvisits]
      exact ⟨h, hvisits⟩
    · have hwork := h.work_step hg hvisits
      exact ih (h.step hg) (by omega)

theorem work_le_effort {g : DiGraph} {s : Search} (h : s.visits = []) : work g s ≤ effort g := by
  unfold work effort unseen
  rw [h, owed, Nat.add_zero]
  exact cost_filter_le ..

/-- After exploring a node it is entered, and no visit is under way. -/
theorem Inv.explore {g : DiGraph} (hg : g.Closed) {s : Search} (h : Inv g s)
    (hvisits : s.visits = []) {root : Nat} (hroot : root < g.size) :
    Inv g (s.explore g root) ∧ (s.explore g root).visits = [] ∧
      ((s.explore g root).number? root).isSome ∧
      ∀ z, (s.number? z).isSome → ((s.explore g root).number? z).isSome := by
  unfold Search.explore
  cases hnumber : s.number? root with
  | some i => exact ⟨h, hvisits, by rw [hnumber]; rfl, fun z hz => hz⟩
  | none =>
    have henter := h.enter_root hvisits hroot hnumber
    have hwork : work g (s.enter g root) ≤ effort g := by
      rw [h.work_enter hroot hnumber]
      exact work_le_effort hvisits
    obtain ⟨hinv, hend⟩ := henter.run hg hwork
    refine ⟨hinv, hend, isSome_number?_run ?_ _, fun z hz => isSome_number?_run ?_ _⟩
    · rw [h.number?_enter_self hroot]
      rfl
    · exact number?_enter_of_isSome hz

/-- After exploring the nodes of a list, they are entered, and no visit is under way. -/
theorem Inv.explore_foldl {g : DiGraph} (hg : g.Closed) {s : Search} (h : Inv g s)
    (hvisits : s.visits = []) {roots : List Nat} (hroots : ∀ v ∈ roots, v < g.size) :
    Inv g (roots.foldl (Search.explore g) s) ∧ (roots.foldl (Search.explore g) s).visits = [] ∧
      ∀ z, (z ∈ roots ∨ (s.number? z).isSome) →
        ((roots.foldl (Search.explore g) s).number? z).isSome := by
  induction roots generalizing s with
  | nil =>
    refine ⟨h, hvisits, fun z hz => hz.resolve_left ?_⟩
    simp
  | cons root roots ih =>
    obtain ⟨hinv, hend, hself, hkeep⟩ := h.explore hg hvisits (hroots root List.mem_cons_self)
    obtain ⟨hinv', hend', hkeep'⟩ := ih hinv hend fun v hv => hroots v (List.mem_cons_of_mem root hv)
    refine ⟨hinv', hend', fun z hz => hkeep' z ?_⟩
    rcases hz with hz | hz
    · rcases List.mem_cons.1 hz with rfl | hz
      · exact .inr hself
      · exact .inl hz
    · exact .inr (hkeep z hz)

/-- At the end, the components found hold each node of the graph once. -/
theorem found_spec {g : DiGraph} (hg : g.Closed) {s : Search}
    (hs : s = (List.range g.size).foldl (Search.explore g) (start g)) :
    (∀ c ∈ s.found, g.IsComponent c) ∧ s.found.flatten.Nodup ∧
      ∀ v, v ∈ s.found.flatten ↔ v < g.size := by
  have hroots : ∀ v ∈ List.range g.size, v < g.size := fun v hv => List.mem_range.1 hv
  obtain ⟨hinv, hend, hentered⟩ := (inv_start g).explore_foldl hg rfl hroots
  rw [← hs] at hinv hend hentered
  have hstack : s.stack = [] := by
    have hspine := hinv.spine
    rw [hend] at hspine
    exact hspine
  have hfound : ∀ v, (s.number? v).isSome ↔ v ∈ s.found.flatten := by
    intro v
    rw [hinv.entered, hstack, List.nil_append]
  have hnodup := hinv.nodup
  rw [hstack, List.nil_append] at hnodup
  refine ⟨hinv.component, hnodup, fun v => ?_⟩
  rw [← hfound]
  constructor
  · intro hv
    rw [← hinv.size]
    exact lt_size_of_number? hv
  · exact fun hv => hentered v (.inl (List.mem_range.2 hv))

end Search

/-! ## Components -/

namespace IsComponent

variable {g : DiGraph} {c c' : List Nat} (h : g.IsComponent c) (h' : g.IsComponent c')

include h

theorem head_mem : c.headD 0 ∈ c := by
  cases c with
  | nil => exact absurd rfl h.ne_nil
  | cons u c => exact List.mem_cons_self

/-- The first node is the smallest one. -/
theorem head_le {u : Nat} (hu : u ∈ c) : c.headD 0 ≤ u := by
  cases c with
  | nil => cases hu
  | cons v c =>
    rcases List.mem_cons.1 hu with rfl | hu
    · exact Nat.le_refl _
    · exact Nat.le_of_lt ((List.pairwise_cons.1 h.ascending).1 u hu)

include h'

/-- Components that share a node are the same. -/
theorem eq_of_mem {u : Nat} (hu : u ∈ c) (hu' : u ∈ c') : c = c' := by
  refine h.ascending.eq_of_mem_iff h'.ascending fun v => ?_
  rw [h.mem_iff u hu, h'.mem_iff u hu']

end IsComponent

section Components

variable {g : DiGraph} (hg : g.Closed)

include hg

theorem perm_components : g.components.Perm
    ((List.range g.size).foldl (Search.explore g) (Search.start g)).found := by
  obtain ⟨hcomponent, hnodup, -⟩ := Search.found_spec hg rfl
  refine perm_ascendingBy ?_
  refine (List.nodup_flatten.1 hnodup).2.imp_of_mem fun hc hc' hdisjoint heq => ?_
  have hmem := (hcomponent _ hc).head_mem
  have hmem' := (hcomponent _ hc').head_mem
  rw [← heq] at hmem'
  exact hdisjoint hmem hmem'

/-- `components` lists exactly the components of the nodes of the graph. -/
theorem mem_components {c : List Nat} :
    c ∈ g.components ↔ g.IsComponent c ∧ ∀ v ∈ c, v < g.size := by
  obtain ⟨hcomponent, -, hcover⟩ := Search.found_spec hg rfl
  rw [(perm_components hg).mem_iff]
  constructor
  · intro hc
    refine ⟨hcomponent c hc, fun v hv => (hcover v).1 (List.mem_flatten.2 ⟨c, hc, hv⟩)⟩
  · rintro ⟨hc, hlt⟩
    obtain ⟨c', hc', hmem⟩ := List.mem_flatten.1 ((hcover _).2 (hlt _ hc.head_mem))
    rw [hc.eq_of_mem (hcomponent c' hc') hc.head_mem hmem]
    exact hc'

/-- Every node is in a component. -/
theorem exists_component {v : Nat} (hv : v < g.size) : ∃ c ∈ g.components, v ∈ c := by
  obtain ⟨-, -, hcover⟩ := Search.found_spec hg rfl
  obtain ⟨c, hc, hmem⟩ := List.mem_flatten.1 ((hcover v).2 hv)
  exact ⟨c, (perm_components hg).mem_iff.2 hc, hmem⟩

/-- The components ascend by their smallest nodes. -/
theorem components_ascend : g.components.Pairwise fun c c' => ∃ u ∈ c, ∀ v ∈ c', u < v := by
  refine (pairwise_ascendingBy _ _).imp_of_mem fun {c c'} hc hc' hlt => ?_
  have hcomponent := ((mem_components hg).1 hc).1
  have hcomponent' := ((mem_components hg).1 hc').1
  refine ⟨_, hcomponent.head_mem, fun v hv => ?_⟩
  have := hcomponent'.head_le hv
  omega

/-- The components hold each node of the graph once. -/
theorem perm_flatten_components : g.components.flatten.Perm (List.range g.size) := by
  obtain ⟨-, hnodup, hcover⟩ := Search.found_spec hg rfl
  refine (perm_components hg).flatten.trans ?_
  refine (List.perm_ext_iff_of_nodup hnodup List.nodup_range).2 fun v => ?_
  rw [hcover, List.mem_range]

/-- **Components.**  The visits that begin at a node come to their end, each within the effort that
is allowed for, and the components split the nodes into the classes of nodes that reach each other,
as ascending lists by ascending smallest node. -/
theorem components_partition :
    (∀ k ≤ g.size, ((List.range k).foldl (Search.explore g) (Search.start g)).visits = []) ∧
      g.components.flatten.Perm (List.range g.size) ∧
      (∀ c ∈ g.components, c ≠ [] ∧ c.Pairwise (· < ·) ∧ ∀ u ∈ c, ∀ v, v ∈ c ↔ g.Mutual u v) ∧
      g.components.Pairwise fun c c' => ∃ u ∈ c, ∀ v ∈ c', u < v := by
  refine ⟨fun k hk => ?_, perm_flatten_components hg, fun c hc => ?_, components_ascend hg⟩
  · have hroots : ∀ v ∈ List.range k, v < g.size := fun v hv =>
      Nat.lt_of_lt_of_le (List.mem_range.1 hv) hk
    exact ((Search.inv_start g).explore_foldl hg rfl hroots).2.1
  · have hcomponent := ((mem_components hg).1 hc).1
    exact ⟨hcomponent.ne_nil, hcomponent.ascending, hcomponent.mem_iff⟩

end Components

/-- Of the rings, each is a component, although one leads to the other. -/
theorem rings_components : rings.Closed ∧ rings.components = [[0, 1], [2, 3, 4], [5]] ∧
    ((List.range 4).foldl (Search.explore rings) (Search.start rings)).visits = [] ∧
    rings.Mutual 2 4 ∧ ¬ rings.Mutual 1 2 := by
  have hclosed : rings.Closed := by decide
  have hlists : rings.components = [[0, 1], [2, 3, 4], [5]] := by decide
  obtain ⟨hends, -, hclasses, -⟩ := components_partition hclosed
  rw [hlists] at hclasses
  obtain ⟨-, -, hfirst⟩ := hclasses [0, 1] (by decide)
  obtain ⟨-, -, hsecond⟩ := hclasses [2, 3, 4] (by decide)
  refine ⟨hclosed, hlists, hends 4 (by decide), (hsecond 2 (by decide) 4).1 (by decide), fun h => ?_⟩
  exact absurd ((hfirst 1 (by decide) 2).2 h) (by decide)

end DiGraph

end Cyclewise
