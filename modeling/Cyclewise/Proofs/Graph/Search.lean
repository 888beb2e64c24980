import Cyclewise.Graph.Component
import Cyclewise.Proofs.Graph.Level

/-!
# The search for components

The nodes of the visits under way cut the stack into segments: the segment of a visit holds the
nodes that were entered after its node and before that of the next inner visit, and whose own visits
have ended.  `Spine` says that each segment is strongly connected with the node of its visit, that
each visit is reached from the next outer one, and that the low link bounds the numbers of the
stacked nodes to which the node and its segment lead.  So when a visit ends with its own number as
low link, no edge leads from its segment further down the stack, and the segment with the node is a
component; otherwise the node leads to a node further down, from there to the outer visit, and back,
so that its segment joins that of the outer visit.
-/

namespace Cyclewise

open Relation (ReflTransGen)

namespace DiGraph

/-- Two nodes are equal or reach each other. -/
def Mutual (g : DiGraph) (u v : Nat) : Prop :=
  ReflTransGen g.Edge u v ∧ ReflTransGen g.Edge v u

theorem Mutual.refl (g : DiGraph) (u : Nat) : g.Mutual u u := ⟨.refl, .refl⟩

theorem Mutual.symm {g : DiGraph} {u v : Nat} (h : g.Mutual u v) : g.Mutual v u := ⟨h.2, h.1⟩

theorem Mutual.trans {g : DiGraph} {u v w : Nat} (h : g.Mutual u v) (h' : g.Mutual v w) :
    g.Mutual u w :=
  ⟨h.1.trans h'.1, h'.2.trans h.2⟩

/-- An ascending list of all nodes that are mutually reachable with any one of them. -/
structure IsComponent (g : DiGraph) (c : List Nat) : Prop where
  ne_nil : c ≠ []
  ascending : c.Pairwise (· < ·)
  mem_iff : ∀ u ∈ c, ∀ v, v ∈ c ↔ g.Mutual u v

namespace Search

/-! ## Numbers -/

section Numbers

variable {g : DiGraph} {s : Search} {v w : Nat}

theorem number?_enter (hv : v < s.number.size) :
    (s.enter g v).number? w = if w = v then some s.next else s.number? w := by
  show (s.number.setIfInBounds v (some s.next)).getD w none = _
  rw [Array.getD_eq_getD_getElem?, Array.getElem?_setIfInBounds]
  by_cases hwv : w = v
  · subst hwv
    simp [hv]
  · rw [if_neg (Ne.symm hwv), if_neg hwv]
    exact (Array.getD_eq_getD_getElem? ..).symm

theorem number?_enter_of_isSome (h : (s.number? w).isSome) :
    ((s.enter g v).number? w).isSome := by
  show ((s.number.setIfInBounds v (some s.next)).getD w none).isSome
  have h' : (s.number.getD w none).isSome := h
  rw [Array.getD_eq_getD_getElem?] at h' ⊢
  rw [Array.getElem?_setIfInBounds]
  by_cases hwv : v = w
  · subst hwv
    by_cases hv : v < s.number.size
    · simp [hv]
    · simp [hv] at h'
  · rw [if_neg hwv]
    exact h'

theorem lt_size_of_number? (h : (s.number? v).isSome) : v < s.number.size := by
  apply Classical.byContradiction
  intro hv
  have h' : (s.number.getD v none).isSome := h
  rw [Array.getD_eq_getD_getElem?, Array.getElem?_eq_none (by omega)] at h'
  cases h'

end Numbers

theorem popTo_append {v : Nat} {segment rest : List Nat} (hv : v ∉ segment) :
    popTo v (segment ++ v :: rest) = (segment ++ [v], rest) := by
  induction segment with
  | nil => simp [popTo]
  | cons w segment ih =>
    rw [List.mem_cons, not_or] at hv
    rw [List.cons_append, popTo, if_neg (Ne.symm hv.1), ih hv.2]
    rfl

/-! ## What the visits know -/

/-- An entered node; as long as it is stacked, its number is at least `low`. -/
def Handled (s : Search) (low z : Nat) : Prop :=
  ∃ i, s.number? z = some i ∧ (z ∈ s.stack → low ≤ i)

/-- Entered nodes keep their numbers, and none of them is stacked again. -/
structure Extends (s s' : Search) : Prop where
  number : ∀ z i, s.number? z = some i → s'.number? z = some i
  stack : ∀ z, (s.number? z).isSome → z ∈ s'.stack → z ∈ s.stack

theorem Handled.mono {s s' : Search} (hss : s.Extends s') {low low' z : Nat} (hlow : low' ≤ low)
    (h : s.Handled low z) : s'.Handled low' z := by
  obtain ⟨i, hi, hle⟩ := h
  refine ⟨i, hss.number z i hi, fun hz => ?_⟩
  have := hle (hss.stack z (by rw [hi]; rfl) hz)
  omega

theorem Extends.refl (s : Search) : s.Extends s := ⟨fun _ _ h => h, fun _ _ h => h⟩

theorem Extends.trans {s s' s'' : Search} (h : s.Extends s') (h' : s'.Extends s'') :
    s.Extends s'' := by
  refine ⟨fun z i hi => h'.number z i (h.number z i hi), fun z hz hmem => ?_⟩
  obtain ⟨i, hi⟩ := Option.isSome_iff_exists.1 hz
  exact h.stack z hz (h'.stack z (by rw [h.number z i hi]; rfl) hmem)

/-- Numbers and stack do not depend on the visits. -/
theorem extends_withVisits (s : Search) (visits : List Visit) :
    s.Extends { s with visits := visits } :=
  ⟨fun _ _ h => h, fun _ _ h => h⟩

/-- A visit with the stacked nodes above its own, as far as they are in its segment, and below. -/
structure Knows (g : DiGraph) (s : Search) (visit : Visit) (segment rest : List Nat) : Prop where
  joined : ∀ x ∈ segment, g.Mutual visit.node x
  low : ∃ y ∈ visit.node :: rest, ReflTransGen g.Edge visit.node y ∧
    s.number? y = some visit.low
  pending : ∀ z ∈ visit.pending, g.Edge visit.node z
  looked : ∀ z, g.Edge visit.node z → z ∈ visit.pending ∨ s.Handled visit.low z
  ended : ∀ x ∈ segment, ∀ z, g.Edge x z → s.Handled visit.low z

/-- The nodes of the visits cut the stack into their segments. -/
def Spine (g : DiGraph) (s : Search) : List Visit → List Nat → Prop
  | [], stack => stack = []
  | visit :: visits, stack => ∃ segment rest, stack = segment ++ visit.node :: rest ∧
      Knows g s visit segment rest ∧
      (∀ outer ∈ visits.head?, ReflTransGen g.Edge outer.node visit.node) ∧
      Spine g s visits rest

section Spine

variable {g : DiGraph} {s s' : Search} {visit : Visit} {visits : List Visit}
  {segment rest stack : List Nat}

theorem Knows.mono (hss : s.Extends s') (h : Knows g s visit segment rest) :
    Knows g s' visit segment rest := by
  obtain ⟨y, hy, hreach, hnumber⟩ := h.low
  exact ⟨h.joined, ⟨y, hy, hreach, hss.number y _ hnumber⟩, h.pending,
    fun z hz => (h.looked z hz).imp_right (Handled.mono hss (Nat.le_refl _)),
    fun x hx z hz => (h.ended x hx z hz).mono hss (Nat.le_refl _)⟩

theorem Spine.mono (hss : s.Extends s') (h : Spine g s visits stack) : Spine g s' visits stack := by
  induction visits generalizing stack with
  | nil => exact h
  | cons visit visits ih =>
    obtain ⟨segment, rest, hstack, hknows, hpath, hrest⟩ := h
    exact ⟨segment, rest, hstack, hknows.mono hss, hpath, ih hrest⟩

/-- Every stacked node leads to the node of the innermost visit. -/
theorem Spine.reaches_node (h : Spine g s (visit :: visits) stack) {y : Nat} (hy : y ∈ stack) :
    ReflTransGen g.Edge y visit.node := by
  induction visits generalizing visit stack with
  | nil =>
    obtain ⟨segment, rest, rfl, hknows, -, rfl⟩ := h
    rcases List.mem_append.1 hy with hy | hy
    · exact (hknows.joined y hy).2
    · rw [List.mem_singleton.1 hy]
  | cons outer visits ih =>
    obtain ⟨segment, rest, rfl, hknows, hpath, hrest⟩ := h
    rcases List.mem_append.1 hy with hy | hy
    · exact (hknows.joined y hy).2
    · rcases List.mem_cons.1 hy with rfl | hy
      · exact .refl
      · exact (ih hrest hy).trans (hpath outer rfl)

end Spine

/-! ## The invariant -/

/-- `v` was entered before `u`. -/
def Older (s : Search) (v u : Nat) : Prop :=
  ∃ i j, s.number? v = some i ∧ s.number? u = some j ∧ i < j

theorem Older.mono {s s' : Search} (hss : s.Extends s') {v u : Nat} (h : s.Older v u) :
    s'.Older v u := by
  obtain ⟨i, j, hi, hj, hij⟩ := h
  exact ⟨i, j, hss.number v i hi, hss.number u j hj, hij⟩

/-- The entered nodes are those on the stack and those in components found. -/
structure Consistent (g : DiGraph) (s : Search) : Prop where
  size : s.number.size = g.size
  lt_next : ∀ v i, s.number? v = some i → i < s.next
  entered : ∀ v, (s.number? v).isSome ↔ v ∈ s.stack ++ s.found.flatten
  nodup : (s.stack ++ s.found.flatten).Nodup
  descending : s.stack.Pairwise fun u v => s.Older v u
  component : ∀ c ∈ s.found, g.IsComponent c
  closed : ∀ v ∈ s.found.flatten, ∀ w, g.Edge v w → w ∈ s.found.flatten

/-- The search is consistent, and its visits know what they are to know. -/
structure Inv (g : DiGraph) (s : Search) : Prop extends Consistent g s where
  spine : Spine g s s.visits s.stack

theorem inv_start (g : DiGraph) : Inv g (start g) where
  size := by simp [start, DiGraph.size]
  lt_next := by
    intro v i h
    simp [start, number?, Array.getD_eq_getD_getElem?, Array.getElem?_replicate] at h
    split at h <;> cases h
  entered := by
    intro v
    simp [start, number?, Array.getD_eq_getD_getElem?, Array.getElem?_replicate]
    split <;> rfl
  nodup := List.nodup_nil
  descending := List.Pairwise.nil
  component := by
    intro c hc
    cases hc
  closed := by
    intro v hv
    cases hv
  spine := rfl

namespace Consistent

variable {g : DiGraph} {s : Search} (h : Consistent g s)

include h

/-! ### Entering a node -/

section Enter

variable {v : Nat} (hv : v < g.size)

include hv

theorem number?_enter_self : (s.enter g v).number? v = some s.next := by
  rw [number?_enter (by rw [h.size]; exact hv), if_pos rfl]

/-- A node that is just entered has come upon nothing but itself. -/
theorem knows_enter : Knows g (s.enter g v) ⟨v, s.next, g.succ v⟩ [] s.stack where
  joined := by
    intro x hx
    cases hx
  low := ⟨v, List.mem_cons_self, .refl, h.number?_enter_self hv⟩
  pending := fun z hz => hz
  looked := fun z hz => .inl hz
  ended := by
    intro x hx
    cases hx

variable (hnew : s.number? v = none)

include hnew

theorem extends_enter : s.Extends (s.enter g v) := by
  have hsize : v < s.number.size := by
    rw [h.size]
    exact hv
  constructor
  · intro z i hz
    rw [number?_enter hsize, if_neg]
    · exact hz
    · rintro rfl
      rw [hnew] at hz
      cases hz
  · intro z hz hmem
    rcases List.mem_cons.1 hmem with rfl | hmem
    · rw [hnew] at hz
      cases hz
    · exact hmem

theorem enter : Consistent g (s.enter g v) where
  size := by
    show (s.number.setIfInBounds v (some s.next)).size = g.size
    rw [Array.size_setIfInBounds, h.size]
  lt_next := by
    intro w i hw
    show i < s.next + 1
    rw [number?_enter (by rw [h.size]; exact hv)] at hw
    split at hw
    · obtain rfl := Option.some.inj hw
      omega
    · have := h.lt_next w i hw
      omega
  entered := by
    intro w
    show _ ↔ w ∈ (v :: s.stack) ++ s.found.flatten
    rw [number?_enter (by rw [h.size]; exact hv), List.cons_append, List.mem_cons, ← h.entered]
    by_cases hwv : w = v
    · simp [hwv]
    · simp [hwv]
  nodup := by
    show ((v :: s.stack) ++ s.found.flatten).Nodup
    rw [List.cons_append, List.nodup_cons, ← h.entered, hnew]
    exact ⟨Bool.false_ne_true, h.nodup⟩
  descending := by
    refine List.pairwise_cons.2 ⟨fun w hw => ?_, ?_⟩
    · obtain ⟨i, hi⟩ := Option.isSome_iff_exists.1
        ((h.entered w).2 (List.mem_append_left _ hw))
      exact ⟨i, s.next, (h.extends_enter hv hnew).number w i hi, h.number?_enter_self hv,
        h.lt_next w i hi⟩
    · exact h.descending.imp fun hold => hold.mono (h.extends_enter hv hnew)
  component := h.component
  closed := h.closed

end Enter

/-! ### Coming upon a node -/

section ComingUpon

/-- Below a stacked node are older ones. -/
theorem lt_of_mem_below {v : Nat} {segment rest : List Nat} (hpart : segment ++ v :: rest <:+ s.stack)
    {y i j : Nat} (hy : y ∈ rest) (hi : s.number? y = some i) (hj : s.number? v = some j) :
    i < j := by
  have hdescending := (List.pairwise_append.1 (h.descending.sublist hpart.sublist)).2.1
  obtain ⟨i', j', hi', hj', hlt⟩ := (List.pairwise_cons.1 hdescending).1 y hy
  rw [hi] at hi'
  rw [hj] at hj'
  have := Option.some.inj hi'
  have := Option.some.inj hj'
  omega

/-- Above a stacked node are younger ones. -/
theorem lt_of_mem_segment {v : Nat} {segment rest : List Nat}
    (hpart : segment ++ v :: rest <:+ s.stack) {x i j : Nat} (hx : x ∈ segment)
    (hi : s.number? v = some i) (hj : s.number? x = some j) : i < j := by
  have hdescending := (List.pairwise_append.1 (h.descending.sublist hpart.sublist)).2.2
  obtain ⟨i', j', hi', hj', hlt⟩ := hdescending x hx v List.mem_cons_self
  rw [hi] at hi'
  rw [hj] at hj'
  have := Option.some.inj hi'
  have := Option.some.inj hj'
  omega

variable {visit : Visit} {segment rest : List Nat}
  (hpart : segment ++ visit.node :: rest <:+ s.stack) (hknows : Knows g s visit segment rest)

include hpart hknows

/-- A low link is at most the number of its node. -/
theorem low_le {i : Nat} (hi : s.number? visit.node = some i) : visit.low ≤ i := by
  obtain ⟨y, hy, -, hnumber⟩ := hknows.low
  rcases List.mem_cons.1 hy with rfl | hy
  · rw [hi] at hnumber
    have := Option.some.inj hnumber
    omega
  · have := h.lt_of_mem_below hpart hy hnumber hi
    omega

/-- A visit that comes upon a stacked node may lower its low link to the number of that node. -/
theorem knows_lower {y i : Nat} (hy : y ∈ segment ++ visit.node :: rest)
    (hreach : ReflTransGen g.Edge visit.node y) (hi : s.number? y = some i) :
    Knows g s { visit with low := min visit.low i } segment rest where
  joined := hknows.joined
  low := by
    obtain ⟨z, hz, hreach', hnumber⟩ := hknows.low
    by_cases hle : visit.low ≤ i
    · refine ⟨z, hz, hreach', ?_⟩
      show s.number? z = some (min visit.low i)
      rw [hnumber, Nat.min_eq_left hle]
    · refine ⟨y, ?_, hreach, ?_⟩
      · -- a younger node would not lower the low link
        rcases List.mem_append.1 hy with hy | hy
        · have hnode : visit.node ∈ s.stack := hpart.subset (by simp)
          obtain ⟨j, hj⟩ := Option.isSome_iff_exists.1
            ((h.entered visit.node).2 (List.mem_append_left _ hnode))
          have := h.lt_of_mem_segment hpart hy hj hi
          have := h.low_le hpart hknows hj
          omega
        · exact hy
      · show s.number? y = some (min visit.low i)
        rw [hi, Nat.min_eq_right (by omega)]
  pending := hknows.pending
  looked := fun z hz => (hknows.looked z hz).imp_right
    (Handled.mono (.refl s) (Nat.min_le_left ..))
  ended := fun x hx z hz => (hknows.ended x hx z hz).mono (.refl s) (Nat.min_le_left ..)

end ComingUpon

/-! ### Completing a component -/

section Complete

variable {v low : Nat} {segment rest : List Nat} (hstack : s.stack = segment ++ v :: rest)
  (hknows : Knows g s ⟨v, low, []⟩ segment rest) (hlow : s.number? v = some low)

include hstack

theorem popTo_stack : popTo v s.stack = (segment ++ [v], rest) := by
  have hnodup := (List.nodup_append.1 h.nodup).1
  rw [hstack] at hnodup ⊢
  exact popTo_append fun hv => (List.nodup_append.1 hnodup).2.2 v hv v List.mem_cons_self rfl

theorem stack_complete : (s.complete v).stack = rest := by
  unfold complete
  rw [h.popTo_stack hstack]

theorem found_complete :
    (s.complete v).found = s.found ++ [ascendingBy id (segment ++ [v])] := by
  unfold complete
  rw [h.popTo_stack hstack]

theorem extends_complete : s.Extends (s.complete v) := by
  refine ⟨fun _ _ hz => hz, fun z _ hz => ?_⟩
  rw [h.stack_complete hstack] at hz
  rw [hstack]
  simp [hz]

theorem perm_complete : ((s.complete v).stack ++ (s.complete v).found.flatten).Perm
    (s.stack ++ s.found.flatten) := by
  have hnodup : (segment ++ [v]).Nodup := by
    have h' := (List.nodup_append.1 h.nodup).1
    rw [hstack, List.append_cons] at h'
    exact (List.nodup_append.1 h').1
  have hperm : (ascendingBy id (segment ++ [v])).Perm (segment ++ [v]) := perm_ascendingBy hnodup
  rw [h.stack_complete hstack, h.found_complete hstack, List.flatten_append,
    List.flatten_singleton, hstack, List.append_cons segment v rest]
  refine List.perm_iff_count.2 fun x => ?_
  simp only [List.count_append, hperm.count_eq]
  omega

include hknows hlow

/-- Edges from the segment of a completed visit stay in it or lead to components found before. -/
theorem mem_of_edge_segment {u z : Nat} (hu : u ∈ segment ++ [v]) (huz : g.Edge u z) :
    z ∈ segment ++ [v] ∨ z ∈ s.found.flatten := by
  have hhandled : s.Handled low z := by
    rcases List.mem_append.1 hu with hu | hu
    · exact hknows.ended u hu z huz
    · obtain rfl := List.mem_singleton.1 hu
      exact (hknows.looked z huz).resolve_left List.not_mem_nil
  obtain ⟨i, hi, hle⟩ := hhandled
  rcases List.mem_append.1 ((h.entered z).1 (by rw [hi]; rfl)) with hz | hz
  · left
    have hle := hle hz
    rw [hstack] at hz
    by_cases hrest : z ∈ rest
    · have hpart : segment ++ v :: rest <:+ s.stack := hstack ▸ List.suffix_rfl
      have := h.lt_of_mem_below hpart hrest hi hlow
      omega
    · simpa [hrest] using hz
  · exact .inr hz

/-- The segment of a completed visit, with its node, is a component. -/
theorem isComponent_segment : g.IsComponent (ascendingBy id (segment ++ [v])) := by
  have hmem : ∀ x, x ∈ ascendingBy id (segment ++ [v]) ↔ x ∈ segment ++ [v] :=
    fun x => mem_ascendingBy fun _ _ hab => hab
  have hjoined : ∀ x ∈ segment ++ [v], g.Mutual v x := by
    intro x hx
    rcases List.mem_append.1 hx with hx | hx
    · exact hknows.joined x hx
    · rw [List.mem_singleton.1 hx]
      exact .refl g v
  have hreached : ∀ x, ReflTransGen g.Edge v x → x ∈ segment ++ [v] ∨ x ∈ s.found.flatten := by
    intro x hx
    induction hx with
    | refl => exact .inl (by simp)
    | tail _ hedge ih =>
      rcases ih with hy | hy
      · exact h.mem_of_edge_segment hstack hknows hlow hy hedge
      · exact .inr (h.closed _ hy _ hedge)
  have hback : ∀ {x y}, ReflTransGen g.Edge x y → x ∈ s.found.flatten → y ∈ s.found.flatten := by
    intro x y hxy hx
    induction hxy with
    | refl => exact hx
    | tail _ hedge ih => exact h.closed _ ih _ hedge
  refine ⟨fun hnil => ?_, pairwise_ascendingBy id _, fun u hu x => ?_⟩
  · have hv := (hmem v).2 (by simp)
    rw [hnil] at hv
    cases hv
  · rw [hmem] at hu ⊢
    constructor
    · exact fun hx => (hjoined u hu).symm.trans (hjoined x hx)
    · intro hux
      have hvx := (hjoined u hu).trans hux
      refine (hreached x hvx.1).resolve_right fun hx => ?_
      -- what was found before does not lead back to the stack
      have hv : v ∈ s.stack := by rw [hstack]; simp
      exact (List.nodup_append.1 h.nodup).2.2 v hv v (hback hvx.2 hx) rfl

theorem complete : Consistent g (s.complete v) where
  size := h.size
  lt_next := h.lt_next
  entered := by
    intro w
    rw [(h.perm_complete hstack).mem_iff]
    exact h.entered w
  nodup := (h.perm_complete hstack).nodup_iff.2 h.nodup
  descending := by
    rw [h.stack_complete hstack]
    have hdescending := h.descending
    rw [hstack] at hdescending
    exact (List.pairwise_cons.1 (List.pairwise_append.1 hdescending).2.1).2.imp
      fun hold => hold.mono (h.extends_complete hstack)
  component := by
    intro c hc
    rw [h.found_complete hstack] at hc
    rcases List.mem_append.1 hc with hc | hc
    · exact h.component c hc
    · rw [List.mem_singleton.1 hc]
      exact h.isComponent_segment hstack hknows hlow
  closed := by
    have hmem : ∀ x, x ∈ (s.complete v).found.flatten ↔
        x ∈ s.found.flatten ∨ x ∈ segment ++ [v] := by
      intro x
      rw [h.found_complete hstack, List.flatten_append, List.mem_append, List.flatten_singleton]
      exact or_congr_right (mem_ascendingBy fun _ _ hab => hab)
    intro u hu w hw
    rw [hmem] at hu ⊢
    rcases hu with hu | hu
    · exact .inl (h.closed u hu w hw)
    · exact (h.mem_of_edge_segment hstack hknows hlow hu hw).symm

end Complete

/-- The visits may change without the rest. -/
theorem withVisits (visits : List Visit) : Consistent g { s with visits := visits } :=
  ⟨h.size, h.lt_next, h.entered, h.nodup, h.descending, h.component, h.closed⟩

end Consistent

/-! ## Steps -/

/-- A successor that is handled is pending no longer. -/
theorem Knows.advance {g : DiGraph} {s : Search} {v low w : Nat} {pending segment rest : List Nat}
    (h : Knows g s ⟨v, low, w :: pending⟩ segment rest) (hw : s.Handled low w) :
    Knows g s ⟨v, low, pending⟩ segment rest where
  joined := h.joined
  low := h.low
  pending := fun z hz => h.pending z (List.mem_cons_of_mem w hz)
  looked := by
    intro z hz
    rcases h.looked z hz with hmem | hhandled
    · rcases List.mem_cons.1 hmem with rfl | hmem
      · exact .inr hw
      · exact .inl hmem
    · exact .inr hhandled
  ended := h.ended

/-- An ended inner visit whose node leads back to the outer one joins its segment. -/
theorem Knows.absorb {g : DiGraph} {s : Search} {visit : Visit} {v low : Nat}
    {inner segment rest below : List Nat} (h : Knows g s visit segment rest)
    (hinner : Knows g s ⟨v, low, []⟩ inner below) (hv : g.Mutual visit.node v)
    (hlow : visit.low ≤ low) : Knows g s visit (inner ++ v :: segment) rest where
  joined := by
    intro x hx
    simp only [List.mem_append, List.mem_cons] at hx
    rcases hx with hx | rfl | hx
    · exact hv.trans (hinner.joined x hx)
    · exact hv
    · exact h.joined x hx
  low := h.low
  pending := h.pending
  looked := h.looked
  ended := by
    intro x hx z hz
    simp only [List.mem_append, List.mem_cons] at hx
    rcases hx with hx | rfl | hx
    · exact (hinner.ended x hx z hz).mono (.refl s) hlow
    · exact ((hinner.looked z hz).resolve_left List.not_mem_nil).mono (.refl s) hlow
    · exact h.ended x hx z hz

namespace Inv

variable {g : DiGraph} {s : Search} (h : Inv g s)

include h

section Look

variable {v low w : Nat} {pending : List Nat} {visits : List Visit}
  (hvisits : s.visits = ⟨v, low, w :: pending⟩ :: visits)

include hvisits

/-- The next successor is new: its own visit begins. -/
theorem look_new (hw : w < g.size) (hnew : s.number? w = none) :
    Inv g (enter g { s with visits := ⟨v, low, pending⟩ :: visits } w) := by
  have hspine := h.spine
  rw [hvisits] at hspine
  obtain ⟨segment, rest, hstack, hknows, hpath, hrest⟩ := hspine
  have hconsistent := h.withVisits (⟨v, low, pending⟩ :: visits)
  have hextends : s.Extends (enter g { s with visits := ⟨v, low, pending⟩ :: visits } w) :=
    (extends_withVisits s _).trans (hconsistent.extends_enter hw hnew)
  have hhandled : Handled (enter g { s with visits := ⟨v, low, pending⟩ :: visits } w) low w := by
    obtain ⟨i, hi⟩ : ∃ i, s.number? v = some i := by
      refine Option.isSome_iff_exists.1 ((h.entered v).2 (List.mem_append_left _ ?_))
      rw [hstack]
      simp
    have hle : low ≤ i := h.low_le (hstack ▸ List.suffix_rfl) hknows hi
    have hlt : i < s.next := h.lt_next v i hi
    refine ⟨s.next, hconsistent.number?_enter_self hw, fun _ => ?_⟩
    show low ≤ s.next
    omega
  refine ⟨hconsistent.enter hw hnew, [], s.stack, rfl, hconsistent.knows_enter hw, ?_, ?_⟩
  · intro outer houter
    obtain rfl := Option.some.inj houter
    exact .single (hknows.pending w List.mem_cons_self)
  · exact ⟨segment, rest, hstack, (hknows.mono hextends).advance hhandled, hpath,
      hrest.mono hextends⟩

/-- The next successor is stacked: it may lower the low link. -/
theorem look_stacked {i : Nat} (hi : s.number? w = some i) (hw : w ∈ s.stack) :
    Inv g (lower { s with visits := ⟨v, low, pending⟩ :: visits } i) := by
  have hspine := h.spine
  rw [hvisits] at hspine
  obtain ⟨segment, rest, hstack, hknows, hpath, hrest⟩ := hspine
  have hedge : g.Edge v w := hknows.pending w List.mem_cons_self
  have hmem : w ∈ segment ++ v :: rest := hstack ▸ hw
  have hlower : Knows g s ⟨v, min low i, w :: pending⟩ segment rest :=
    h.knows_lower (hstack ▸ List.suffix_rfl) hknows hmem (.single hedge) hi
  have hhandled : s.Handled (min low i) w := ⟨i, hi, fun _ => Nat.min_le_right low i⟩
  have hextends := extends_withVisits s (⟨v, min low i, pending⟩ :: visits)
  exact ⟨h.withVisits _, segment, rest, hstack, (hlower.advance hhandled).mono hextends, hpath,
    hrest.mono hextends⟩

/-- The next successor is in a component found before. -/
theorem look_found {i : Nat} (hi : s.number? w = some i) (hw : w ∉ s.stack) :
    Inv g { s with visits := ⟨v, low, pending⟩ :: visits } := by
  have hspine := h.spine
  rw [hvisits] at hspine
  obtain ⟨segment, rest, hstack, hknows, hpath, hrest⟩ := hspine
  have hhandled : s.Handled low w := ⟨i, hi, fun hmem => absurd hmem hw⟩
  have hextends := extends_withVisits s (⟨v, low, pending⟩ :: visits)
  exact ⟨h.withVisits _, segment, rest, hstack, (hknows.advance hhandled).mono hextends, hpath,
    hrest.mono hextends⟩

end Look

section End

variable {v low : Nat} {visits : List Visit} (hvisits : s.visits = ⟨v, low, []⟩ :: visits)

include hvisits

/-- A visit ends with its own number as low link: its component is complete. -/
theorem end_complete (hlow : s.number? v = some low) :
    Inv g (complete (lower { s with visits := visits } low) v) := by
  have hspine := h.spine
  rw [hvisits] at hspine
  obtain ⟨segment, rest, hstack, hknows, -, hrest⟩ := hspine
  have hpart : segment ++ v :: rest <:+ s.stack := hstack ▸ List.suffix_rfl
  -- the low link of the outer visit is less already
  have hsame : lower { s with visits := visits } low = { s with visits := visits } := by
    cases visits with
    | nil => rfl
    | cons outer visits =>
      obtain ⟨segment', rest', hstack', hknows', -, -⟩ := hrest
      obtain ⟨p, low', pending'⟩ := outer
      have hp : p ∈ rest := by
        rw [hstack']
        simp
      have hpart' : segment' ++ p :: rest' <:+ s.stack := by
        refine List.IsSuffix.trans ?_ hpart
        rw [hstack']
        exact (List.suffix_cons v _).trans (List.suffix_append segment _)
      obtain ⟨i, hi⟩ : ∃ i, s.number? p = some i :=
        Option.isSome_iff_exists.1 ((h.entered p).2 (List.mem_append_left _ (by
          rw [hstack]
          simp [hp])))
      have hle : low' ≤ i := h.low_le hpart' hknows' hi
      have hlt : i < low := h.lt_of_mem_below hpart hp hi hlow
      show ({ s with visits := ⟨p, min low' low, pending'⟩ :: visits } : Search) = _
      rw [Nat.min_eq_left (by omega)]
  rw [hsame]
  have hconsistent := h.withVisits visits
  have hknows' := hknows.mono (extends_withVisits s visits)
  have hextends := (extends_withVisits s visits).trans (hconsistent.extends_complete hstack)
  refine ⟨hconsistent.complete hstack hknows' hlow, ?_⟩
  rw [hconsistent.stack_complete hstack]
  exact hrest.mono hextends

/-- A visit ends with another low link: its segment joins that of the outer visit. -/
theorem end_absorbed (hlow : s.number? v ≠ some low) :
    Inv g (lower { s with visits := visits } low) := by
  have hspine := h.spine
  rw [hvisits] at hspine
  obtain ⟨segment, rest, hstack, hknows, hpath, hrest⟩ := hspine
  obtain ⟨y, hy, hvy, hnumber⟩ := hknows.low
  have hy : y ∈ rest := by
    rcases List.mem_cons.1 hy with rfl | hy
    · exact absurd hnumber hlow
    · exact hy
  cases visits with
  | nil =>
    rw [show rest = [] from hrest] at hy
    cases hy
  | cons outer visits =>
    have hyp := hrest.reaches_node hy
    have hpv : g.Mutual outer.node v := ⟨hpath outer rfl, hvy.trans hyp⟩
    obtain ⟨segment', rest', hstack', hknows', hpath', hrest'⟩ := hrest
    have hpart' : segment' ++ outer.node :: rest' <:+ s.stack := by
      rw [hstack, hstack']
      exact (List.suffix_cons v _).trans (List.suffix_append segment _)
    have hlower : Knows g s { outer with low := min outer.low low } segment' rest' :=
      h.knows_lower hpart' hknows' (hstack' ▸ hy) (hpv.1.trans hvy) hnumber
    have habsorb := hlower.absorb hknows hpv (Nat.min_le_right ..)
    have hextends := extends_withVisits s ({ outer with low := min outer.low low } :: visits)
    refine ⟨h.withVisits _, segment ++ v :: segment', rest', ?_, habsorb.mono hextends, hpath',
      hrest'.mono hextends⟩
    show s.stack = _
    rw [hstack, hstack', List.append_assoc]
    rfl

end End

/-- The nodes to look at are nodes of the graph. -/
theorem lt_size_of_pending (hg : g.Closed) {v low w : Nat} {pending : List Nat}
    {visits : List Visit} (hvisits : s.visits = ⟨v, low, w :: pending⟩ :: visits) :
    w < g.size := by
  have hspine := h.spine
  rw [hvisits] at hspine
  obtain ⟨segment, rest, -, hknows, -⟩ := hspine
  exact closed_iff.1 hg v w (hknows.pending w List.mem_cons_self)

/-- The visit of a new node can begin when no visit is under way. -/
theorem enter_root (hvisits : s.visits = []) {v : Nat} (hv : v < g.size)
    (hnew : s.number? v = none) : Inv g (s.enter g v) := by
  have hspine := h.spine
  rw [hvisits] at hspine
  refine ⟨h.toConsistent.enter hv hnew, [], s.stack, rfl, h.knows_enter hv, ?_, ?_⟩
  · intro outer houter
    rw [hvisits] at houter
    cases houter
  · rw [hvisits]
    exact hspine

end Inv

end Search

end DiGraph

end Cyclewise
