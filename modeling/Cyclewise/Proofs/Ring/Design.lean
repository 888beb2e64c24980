import Mathlib
import Cyclewise.Profile
import Cyclewise.Proofs.Elaboration
import Cyclewise.Proofs.Hierarchy.Calls
import Cyclewise.Proofs.Signal.Index

/-!
# The design of a ring

An edit is accepted when what it adds is new (`SignalTable.insert_of_new`,
`Hierarchy.exists_registerBlock`, `Hierarchy.exists_addConstraints`).  The names of a ring are
numbered, so its edits are accepted one after the other as long as there are numbers for its signals,
and make a `Ring` (`exists_ring`).
-/

namespace Cyclewise

/-! ## What is accepted -/

/-- A declaration with a new path is accepted, unless the table is full. -/
theorem SignalTable.insert_of_new {t : SignalTable} {d : SignalDef} (hpath : t.lookup? d.path = none) :
    capacity ≤ t.size ∧ t.insert d = .error .tableFull ∨
      t.size < capacity ∧ ∃ t', t.insert d = .ok (⟨t.size⟩, t') := by
  have hkeys : ¬ t.byPath.contains d.path = true := by
    unfold lookup? at hpath
    rw [OrderedMap.contains, decide_eq_true_eq, OrderedMap.mem_keys_iff_isSome_find?, hpath]
    exact Bool.false_ne_true
  unfold insert
  rw [if_neg hkeys]
  rcases Nat.lt_or_ge t.size capacity with hsize | hsize
  · exact .inr ⟨hsize, by rw [if_neg (Nat.not_le_of_lt hsize)]; exact ⟨_, rfl⟩⟩
  · exact .inl ⟨hsize, if_pos hsize⟩

namespace Hierarchy

variable {μ : Type} {h : Hierarchy μ} {owner : ComponentId}

theorem component_of_component? {node : Component} (howner : h.component? owner = some node) :
    h.component owner = .ok node := by
  unfold component
  rw [howner]

/-- A block with a new name is accepted by a live component. -/
theorem exists_registerBlock (hh : h.Built) (howner : (h.component? owner).isSome)
    {block : UpdateBlock μ} (hname : ∀ b, ¬ h.IsOwned owner block.name b) :
    ∃ b h', h.registerBlock owner block = .ok (b, h') := by
  obtain ⟨node, hnode⟩ := Option.isSome_iff_exists.1 howner
  have hkeys : ¬ node.blocks.contains block.name = true := by
    rw [OrderedMap.contains, decide_eq_true_eq, OrderedMap.mem_keys_iff]
    rintro ⟨b, hb⟩
    exact hname b ((hh.invariant.blocks.blocks hnode _ b).1 hb)
  simp only [registerBlock, bind, Except.bind, component_of_component? hnode, if_neg hkeys]
  exact ⟨_, _, rfl⟩

/-- A constraint between two live blocks that is new passes its check. -/
theorem checkConstraint_of_new {k : Constraint} (hne : k.before ≠ k.after)
    (hbefore : (h.entry? k.before).isSome) (hafter : (h.entry? k.after).isSome)
    (hnew : h.constraints.find? k = none) : h.checkConstraint k = .ok () := by
  obtain ⟨before, hbefore⟩ := Option.isSome_iff_exists.1 hbefore
  obtain ⟨after, hafter⟩ := Option.isSome_iff_exists.1 hafter
  simp only [checkConstraint, entry, hbefore, hafter, hnew, bind, Except.bind, if_neg hne]
  rfl

theorem checkConstraints_of_new {pairs accepted : List Constraint}
    (hpairs : ∀ k ∈ pairs, h.checkConstraint k = .ok ()) (hnodup : (accepted ++ pairs).Nodup) :
    h.checkConstraints owner accepted pairs = .ok (accepted ++ pairs) := by
  induction pairs generalizing accepted with
  | nil => rw [List.append_nil]; rfl
  | cons k rest ih =>
    have hk : k ∉ accepted := fun hmem =>
      (List.nodup_append.1 hnodup).2.2 k hmem k List.mem_cons_self rfl
    have happend : accepted ++ k :: rest = (accepted ++ [k]) ++ rest := by simp
    rw [happend] at hnodup ⊢
    simp only [checkConstraints, bind, Except.bind, hpairs k List.mem_cons_self, if_neg hk]
    exact ih (fun k' hk' => hpairs k' (List.mem_cons_of_mem k hk')) hnodup

/-- Different constraints that pass their checks are accepted by a live component. -/
theorem exists_addConstraints (howner : (h.component? owner).isSome) {pairs : List Constraint}
    (hpairs : ∀ k ∈ pairs, h.checkConstraint k = .ok ()) (hnodup : pairs.Nodup) :
    ∃ h', h.addConstraints owner pairs = .ok h' := by
  obtain ⟨node, hnode⟩ := Option.isSome_iff_exists.1 howner
  have hcheck : h.checkConstraints owner [] pairs = .ok pairs :=
    checkConstraints_of_new hpairs hnodup
  simp only [addConstraints, bind, Except.bind, component_of_component? hnode, hcheck]
  split
  · exact ⟨_, rfl⟩
  · exact ⟨_, rfl⟩

end Hierarchy

namespace Design

variable {μ : Type}

/-- The edits are accepted one after the other and lead from one design to the other one. -/
inductive Accepts : Design μ → List (Edit μ) → Design μ → Prop where
  | nil (d) : Accepts d [] d
  | cons {d d' d'' edit edits result} (h : d.apply edit = .ok (result, d'))
    (rest : Accepts d' edits d'') : Accepts d (edit :: edits) d''

variable {d d' d'' : Design μ}

namespace Accepts

variable {edits edits' : List (Edit μ)}

theorem append (h : Accepts d edits d') (h' : Accepts d' edits' d'') :
    Accepts d (edits ++ edits') d'' := by
  induction h with
  | nil => exact h'
  | cons h _ ih => exact .cons h (ih h')

theorem singleton {edit : Edit μ} {result : EditResult} (h : d.apply edit = .ok (result, d')) :
    Accepts d [edit] d' :=
  .cons h (.nil d')

/-- Accepted edits are made, and those after them start from the design that they lead to. -/
theorem applyAll_append (h : Accepts d edits d') (rest : List (Edit μ)) :
    (d.applyAll (edits ++ rest)).refusal = (d'.applyAll rest).refusal ∧
      (d.applyAll (edits ++ rest)).design = (d'.applyAll rest).design := by
  induction h with
  | nil => exact ⟨rfl, rfl⟩
  | cons h _ ih =>
    rw [List.cons_append, Design.applyAll, h]
    exact ih

theorem applyAll (h : Accepts d edits d') :
    (d.applyAll edits).refusal = none ∧ (d.applyAll edits).design = d' := by
  have happend := h.applyAll_append []
  rwa [List.append_nil] at happend

/-- Numbered edits, each of which is accepted after those before it. -/
theorem of_range {P : Nat → Design μ → Prop} (edit : Nat → Edit μ) {m : Nat} (hzero : P 0 d)
    (hstep : ∀ k < m, ∀ d, P k d → ∃ result d', d.apply (edit k) = .ok (result, d') ∧ P (k + 1) d') :
    ∃ d', Accepts d ((List.range m).map edit) d' ∧ P m d' := by
  induction m with
  | zero => exact ⟨d, .nil d, hzero⟩
  | succ m ih =>
    obtain ⟨d', haccepts, hd'⟩ := ih fun k hk => hstep k (Nat.lt_succ_of_lt hk)
    obtain ⟨result, d'', happly, hd''⟩ := hstep m (Nat.lt_succ_self m) d' hd'
    refine ⟨d'', ?_, hd''⟩
    rw [List.range_succ, List.map_append]
    exact haccepts.append (.singleton happly)

end Accepts

/-! ## Names -/

/-- Signal `i` of a ring. -/
def ringWire (i : Nat) : SignalDef where
  path := s!"top.r{i}"
  kind := .wire
  typeName := "Bits64"
  owner := Hierarchy.top
  parent := none

theorem ringWire_path_injective {i j : Nat} (h : (ringWire i).path = (ringWire j).path) : i = j := by
  have hrepr : i.repr = j.repr := by simpa [ringWire] using h
  exact Nat.repr_inj.1 hrepr

theorem ringCell_name_injective {n i j : Nat}
    (h : (ringCell n i : UpdateBlock μ).name = (ringCell n j : UpdateBlock μ).name) : i = j := by
  have hrepr : i.repr = j.repr := by simpa [ringCell, UpdateBlock.ofAssignment] using h
  exact Nat.repr_inj.1 hrepr

theorem index_ringBlock {n i : Nat} (hi : i < n) : (ringBlock n i).index + i + 1 = n := by
  simp only [ringBlock]
  omega

theorem eq_ringBlock_iff {n i : Nat} (hi : i < n) {b : BlockId} :
    b = ringBlock n i ↔ b.index + i + 1 = n := by
  have hblock := index_ringBlock hi
  refine ⟨fun h => h ▸ hblock, fun h => BlockId.eq_of_index _ _ ?_⟩
  omega

theorem mem_ringConstraints {n : Nat} {k : Constraint} : k ∈ ringConstraints n ↔
    k.before.index = k.after.index + 1 ∧ k.before.index < n := by
  unfold ringConstraints ringBlock
  rw [List.mem_map]
  constructor
  · rintro ⟨i, hi, rfl⟩
    rw [List.mem_range] at hi
    simp only
    omega
  · obtain ⟨⟨b⟩, ⟨a⟩⟩ := k
    rintro ⟨hstep, hlt⟩
    simp only at hstep hlt
    refine ⟨n - 1 - b, List.mem_range.2 (by omega), ?_⟩
    have hb : n - 1 - (n - 1 - b) = b := by omega
    have ha : n - 1 - (n - 1 - b + 1) = a := by omega
    rw [hb, ha]

theorem nodup_ringConstraints (n : Nat) : (ringConstraints n).Nodup := by
  unfold ringConstraints ringBlock
  rw [List.Nodup, List.pairwise_map]
  refine List.pairwise_lt_range.imp_of_mem fun {i j} hi hj hlt heq => ?_
  rw [List.mem_range] at hi hj
  simp only [Constraint.mk.injEq, BlockId.mk.injEq] at heq
  omega

/-! ## Building a ring -/

/-- The first `k` signals of a ring are declared, and nothing else is there. -/
structure Wired (k : Nat) (d : Design μ) : Prop where
  built : d.Built
  hierarchy : d.hierarchy = Hierarchy.new "top"
  connections : d.connections = []
  size : d.signals.size = k
  get? : ∀ i < k, d.signals.get? ⟨i⟩ = some (ringWire i)

/-- The path of the next signal is new. -/
theorem Wired.lookup? {k : Nat} (hd : d.Wired k) : d.signals.lookup? (ringWire k).path = none := by
  cases hlookup : d.signals.lookup? (ringWire k).path with
  | none => rfl
  | some a =>
    obtain ⟨decl, hdecl, hpath⟩ := hd.built.parts.2.lookup?_eq_some_iff.1 hlookup
    have hlt := SignalTable.lt_size_of_get? hdecl
    rw [hd.size] at hlt
    obtain rfl := Option.some.inj ((hd.get? a.index hlt).symm.trans hdecl)
    have := ringWire_path_injective hpath
    omega

/-- The next signal is declared, unless the table is full. -/
theorem Wired.apply {k : Nat} (hd : d.Wired k) :
    SignalTable.capacity ≤ k ∧ d.apply (wire s!"top.r{k}") = .error (.signal .tableFull) ∨
      k < SignalTable.capacity ∧
        ∃ result d', d.apply (wire s!"top.r{k}") = .ok (result, d') ∧ d'.Wired (k + 1) := by
  have happly : d.apply (wire s!"top.r{k}") = d.withSignal (d.signals.insert (ringWire k)) := rfl
  rw [happly]
  rcases SignalTable.insert_of_new hd.lookup? with ⟨hfull, hrefused⟩ | ⟨hroom, t, ht⟩
  · rw [hd.size] at hfull
    exact .inl ⟨hfull, by rw [hrefused]; rfl⟩
  · rw [hd.size] at hroom
    have haccepted : d.withSignal (d.signals.insert (ringWire k)) =
        .ok (.signal ⟨d.signals.size⟩, { d with signals := t }) := by
      rw [ht]
      rfl
    refine .inr ⟨hroom, _, _, haccepted, .apply hd.built (happly.trans haccepted), hd.hierarchy,
      hd.connections, ?_, fun i hi => ?_⟩
    · rw [← hd.size]
      exact SignalTable.size_insert ht
    · show t.get? ⟨i⟩ = _
      rw [SignalTable.get?_insert ht, hd.size]
      by_cases hik : i = k
      · rw [if_pos hik, hik]
      · rw [if_neg hik]
        exact hd.get? i (by omega)

/-- The last `k` incrementers of a ring are registered, after all its signals. -/
structure Registered (n k : Nat) (d : Design μ) : Prop where
  built : d.Built
  connections : d.connections = []
  signals : d.signals.size = n
  get? : ∀ i < n, d.signals.get? ⟨i⟩ = some (ringWire i)
  size : d.hierarchy.blocks.size = k
  entry? : ∀ b, d.hierarchy.entry? b =
    if b.index < k then some ⟨ringCell n (n - 1 - b.index), Hierarchy.top, true⟩ else none
  constraints : d.hierarchy.constraints = ∅

theorem Built.isSome_top (hd : d.Built) : (d.hierarchy.component? Hierarchy.top).isSome := by
  obtain ⟨node, hnode, -⟩ := hd.hierarchy.invariant.tree.top_live
  rw [hnode]
  rfl

theorem Wired.registered {n : Nat} (hd : d.Wired n) : d.Registered n 0 where
  built := hd.built
  connections := hd.connections
  signals := hd.size
  get? := hd.get?
  size := by rw [hd.hierarchy]; rfl
  entry? b := by rw [hd.hierarchy]; rfl
  constraints := by rw [hd.hierarchy]; rfl

/-- The incrementer before those registered is registered. -/
theorem Registered.apply {n k : Nat} (hk : k < n) (hd : d.Registered n k) :
    ∃ result d', d.apply (topBlock (ringCell n (n - 1 - k))) = .ok (result, d') ∧
      d'.Registered n (k + 1) := by
  have hname : ∀ b, ¬ d.hierarchy.IsOwned Hierarchy.top
      (ringCell n (n - 1 - k) : UpdateBlock μ).name b := by
    rintro b ⟨e, hentry, -, hname⟩
    rw [hd.entry?] at hentry
    split at hentry
    · next hb =>
      obtain rfl := Option.some.inj hentry
      have := ringCell_name_injective hname
      omega
    · cases hentry
  obtain ⟨b, h', hregister⟩ :=
    Hierarchy.exists_registerBlock hd.built.hierarchy hd.built.isSome_top hname
  have happly : d.apply (topBlock (ringCell n (n - 1 - k))) =
      .ok (.block b, { d with hierarchy := h' }) := by
    show d.withBlock _ = _
    rw [hregister]
    rfl
  obtain ⟨-, -, -, hb, -, -, hblocks, hconstraints⟩ := Hierarchy.registerBlock_effect hregister
  rw [hd.size] at hb
  refine ⟨_, _, happly, .apply hd.built happly, hd.connections, hd.signals, hd.get?, ?_,
    fun x => ?_, ?_⟩
  · show h'.blocks.size = _
    rw [hblocks, Array.size_push, hd.size]
  · show h'.entry? x = _
    rw [Hierarchy.entry?_registerBlock hregister, hd.entry?, hb]
    by_cases hx : x.index = k
    · rw [if_pos (BlockId.eq_of_index x ⟨k⟩ hx), if_pos (by omega), hx]
    · have hne : x ≠ ⟨k⟩ := fun heq => hx (by rw [heq])
      have hlt : x.index < k + 1 ↔ x.index < k := by omega
      simp only [if_neg hne, hlt]
  · exact hconstraints.trans hd.constraints

/-- A design of a ring: `n` signals, `n` incrementers, the last one registered first, and the
constraints between them. -/
structure Ring (n : Nat) (d : Design μ) : Prop where
  built : d.Built
  connections : d.connections = []
  signals : d.signals.size = n
  get? : ∀ i < n, d.signals.get? ⟨i⟩ = some (ringWire i)
  block? : ∀ b, d.hierarchy.block? b =
    if b.index < n then some (ringCell n (n - 1 - b.index)) else none
  constraints : d.hierarchy.constraints.keys = ringConstraints n

/-- The block of incrementer `i` is that incrementer. -/
theorem Ring.block?_ringBlock {n i : Nat} (hd : d.Ring n) (hi : i < n) :
    d.hierarchy.block? (ringBlock n i) = some (ringCell n i) := by
  have hblock := index_ringBlock hi
  have hindex : n - 1 - (ringBlock n i).index = i := by omega
  rw [hd.block?, if_pos (by omega), hindex]

theorem Registered.exists_ring {n : Nat} (hd : d.Registered n n) :
    ∃ result d', d.apply (.addConstraints Hierarchy.top (ringConstraints n)) = .ok (result, d') ∧
      d'.Ring n := by
  have hlive : ∀ b : BlockId, b.index < n → (d.hierarchy.entry? b).isSome := by
    intro b hb
    rw [hd.entry?, if_pos hb]
    rfl
  have hcheck : ∀ k ∈ ringConstraints n, d.hierarchy.checkConstraint k = .ok () := by
    intro k hk
    obtain ⟨hstep, hlt⟩ := mem_ringConstraints.1 hk
    refine Hierarchy.checkConstraint_of_new (fun heq => ?_) (hlive _ hlt) (hlive _ (by omega)) ?_
    · rw [heq] at hstep
      omega
    · rw [hd.constraints]
      rfl
  obtain ⟨h', hadd⟩ :=
    Hierarchy.exists_addConstraints hd.built.isSome_top hcheck (nodup_ringConstraints n)
  have happly : d.apply (.addConstraints Hierarchy.top (ringConstraints n)) =
      .ok (.done, { d with hierarchy := h' }) := by
    show d.withHierarchy _ = _
    rw [hadd]
    rfl
  obtain ⟨-, -, -, -, -, hentries⟩ := Hierarchy.addConstraints_effect hadd
  refine ⟨_, _, happly, .apply hd.built happly, hd.connections, hd.signals, hd.get?, fun b => ?_, ?_⟩
  · show h'.block? b = _
    unfold Hierarchy.block?
    rw [Hierarchy.entry?_addConstraints hadd, hd.entry?]
    split <;> rfl
  · show h'.constraints.keys = _
    unfold OrderedMap.keys
    rw [hentries, hd.constraints, List.map_append, List.map_map]
    exact List.map_id _

theorem reverse_range (n : Nat) : (List.range n).reverse = (List.range n).map (n - 1 - ·) := by
  rw [List.range_eq_range', List.reverse_range', ← List.range_eq_range']
  refine List.map_congr_left fun i _ => ?_
  rw [Nat.zero_add]

/-- The signals of a ring are declared up to the capacity of the table. -/
theorem exists_wired {n : Nat} (hn : n ≤ SignalTable.capacity) :
    ∃ d : Design μ, Accepts (new "top") ((List.range n).map fun i => wire s!"top.r{i}") d ∧
      d.Wired n := by
  refine Accepts.of_range (P := Wired) _ ?_ fun k hk d hd => ?_
  · exact ⟨.new "top", rfl, rfl, rfl, fun i hi => absurd hi (Nat.not_lt_zero i)⟩
  · rcases hd.apply with ⟨hfull, -⟩ | ⟨-, haccepted⟩
    · omega
    · exact haccepted

/-- The edits of a ring are accepted if its signals have numbers. -/
theorem exists_ring {n : Nat} (hn : n ≤ SignalTable.capacity) :
    ∃ d : Design μ, Accepts (new "top") (ringEdits n) d ∧ d.Ring n := by
  obtain ⟨d, haccepts, hwired⟩ := exists_wired (μ := μ) hn
  obtain ⟨d', haccepts', hregistered⟩ :=
    Accepts.of_range (P := Registered n) (fun k => topBlock (ringCell n (n - 1 - k)))
      hwired.registered fun k hk d hd => hd.apply hk
  obtain ⟨result, d'', happly, hring⟩ := hregistered.exists_ring
  refine ⟨d'', ?_, hring⟩
  unfold ringEdits
  rw [reverse_range, List.map_map]
  exact (haccepts.append haccepts').append (.singleton happly)

/-- The profile is a ring. -/
theorem ring_ringProfile {n : Nat} (hn : n ≤ SignalTable.capacity) :
    (ringProfile n : Design μ).Ring n := by
  obtain ⟨d, haccepts, hring⟩ := exists_ring (μ := μ) hn
  have hdesign : (ringProfile n : Design μ) = d := haccepts.applyAll.2
  rw [hdesign]
  exact hring

/-- Where the signals are more than the numbers, the first one without a number is refused. -/
theorem refusal_of_capacity_lt {n : Nat} (hn : SignalTable.capacity < n) :
    ((new "top").applyAll (ringEdits n : List (Edit μ))).refusal = some (.signal .tableFull) := by
  obtain ⟨d, haccepts, hwired⟩ := exists_wired (μ := μ) (Nat.le_refl SignalTable.capacity)
  obtain ⟨m, rfl⟩ : ∃ m, n = SignalTable.capacity + (m + 1) :=
    ⟨n - SignalTable.capacity - 1, by omega⟩
  have hwires : (List.range (SignalTable.capacity + (m + 1))).map
        (fun i => (wire s!"top.r{i}" : Edit μ)) =
      (List.range SignalTable.capacity).map (fun i => wire s!"top.r{i}") ++
        wire s!"top.r{SignalTable.capacity}" ::
          (List.range m).map fun i => wire s!"top.r{SignalTable.capacity + (i + 1)}" := by
    rw [List.range_add, List.map_append, List.range_succ_eq_map, List.map_cons, List.map_map,
      List.map_cons, List.map_map]
    rfl
  unfold ringEdits
  rw [hwires, List.append_assoc, List.append_assoc, (haccepts.applyAll_append _).1, List.cons_append,
    Design.applyAll]
  rcases hwired.apply with ⟨-, hrefused⟩ | ⟨hroom, -⟩
  · rw [hrefused]
  · exact absurd hroom (Nat.lt_irrefl _)

end Design

end Cyclewise
