import Mathlib.Order.Bounds.Basic
import Cyclewise.Proofs.Net.Canonical
import Cyclewise.Proofs.Net.Reordering
import Cyclewise.Proofs.Schedule.Shape

/-!
# Schedules depend on what was declared

Blocks may be listed in any order, signals may be connected in any way that connects the same ones,
and constraints may be given in any way that orders the same blocks.  None of it shows in the
schedule (`scheduleBlocks_canonical`).  The analysis and the nets hold the same
(`Extraction.Alike`, `NetMap.Alike`), so the inferred edges are the same
(`InferredEdge.inferAll_congr`).  Chains of constraints tell which of them are kept
(`edges_of_schedule`), there is a schedule when nothing leads from a block back to it
(`exists_schedule`), and the batches are told by longest paths (`exists_batch_iff`), whose lengths
do not change with a constraint that others imply (`isGreatest_congr`).
-/

namespace Cyclewise

open Relation (TransGen)

/-! ## Sites -/

namespace DepSite

theorem le_iff {s t : DepSite} : le s t = true ↔
    s.block.index < t.block.index ∨ s.block.index = t.block.index ∧
      (s.span.line < t.span.line ∨
        s.span.line = t.span.line ∧ s.span.column ≤ t.span.column) := by
  simp [le]

theorem le_trans (s t u : DepSite) (hst : le s t = true) (htu : le t u = true) :
    le s u = true := by
  rw [le_iff] at *
  omega

theorem le_total (s t : DepSite) : (le s t || le t s) = true := by
  rw [Bool.or_eq_true, le_iff, le_iff]
  omega

theorem le_antisymm {s t : DepSite} (hst : le s t = true) (hts : le t s = true) : s = t := by
  obtain ⟨⟨i⟩, ⟨line, column⟩⟩ := s
  obtain ⟨⟨j⟩, ⟨line', column'⟩⟩ := t
  rw [le_iff] at hst hts
  simp only at hst hts
  obtain rfl : i = j := by omega
  obtain rfl : line = line' := by omega
  obtain rfl : column = column' := by omega
  rfl

/-- Sites in order, without repetition, are told by their members. -/
theorem sort_congr {ss ts : List DepSite} (h : ∀ s, s ∈ ss ↔ s ∈ ts) :
    ss.eraseDups.mergeSort le = ts.eraseDups.mergeSort le := by
  have hperm : ss.eraseDups.Perm ts.eraseDups :=
    (List.perm_ext_iff_of_nodup (nodup_eraseDups ss) (nodup_eraseDups ts)).2 fun s => by
      rw [List.mem_eraseDups, List.mem_eraseDups, h]
  have hsorted : ∀ us : List DepSite, (us.mergeSort le).Pairwise (le · ·) := fun us =>
    List.pairwise_mergeSort le_trans le_total us
  refine List.Perm.eq_of_pairwise (fun s t _ _ => le_antisymm) (hsorted _) (hsorted _) ?_
  exact (List.mergeSort_perm _ _).trans (hperm.trans (List.mergeSort_perm _ _).symm)

end DepSite

/-! ## Inferred edges -/

namespace InferredEdge

variable {x x' : Extraction} {nets nets' : NetMap} (hx : x.Alike x') (hn : nets.Alike nets')

include hx hn

theorem infer_congr (n : NetId) (w r : BlockId) : infer x' nets' n w r = infer x nets n w r := by
  have hsites : ∀ site, site ∈ nets'.writeSites w n ++ nets'.readSites r n ↔
      site ∈ nets.writeSites w n ++ nets.readSites r n := by
    intro site
    rw [List.mem_append, List.mem_append, hn.mem_writeSites, hn.mem_readSites]
  unfold infer
  rw [hn.members_eq, hx.access?_eq, hx.access?_eq, DepSite.sort_congr hsites]

theorem inferAll_congr : inferAll x' nets' = inferAll x nets := by
  unfold inferAll NetMap.ids
  simp only [hn.size_eq, hn.writers_eq, hn.readers_eq, infer_congr hx hn]

end InferredEdge

/-! ## Longest paths -/

section

variable {α : Type} {R R' : α → α → Prop}

theorem PathTo.exists_lt {n : Nat} {a b : α} (h : PathTo R n a) (hab : TransGen R a b) :
    ∃ m, n < m ∧ PathTo R m b := by
  induction hab with
  | single hab => exact ⟨n + 1, Nat.lt_succ_self n, h.step hab⟩
  | tail _ hbc ih =>
    obtain ⟨m, hnm, hpath⟩ := ih
    exact ⟨m + 1, hnm.trans (Nat.lt_succ_self m), hpath.step hbc⟩

/-- A path whose steps are paths is no shorter than before. -/
theorem PathTo.exists_le (hR : ∀ a b, R a b → TransGen R' a b) {n : Nat} {b : α}
    (h : PathTo R n b) : ∃ m, n ≤ m ∧ PathTo R' m b := by
  induction h with
  | start b => exact ⟨0, Nat.le_refl 0, .start b⟩
  | step _ hab ih =>
    obtain ⟨m, hnm, hpath⟩ := ih
    obtain ⟨m', hmm', hpath'⟩ := hpath.exists_lt (hR _ _ hab)
    exact ⟨m', Nat.succ_le_of_lt (Nat.lt_of_le_of_lt hnm hmm'), hpath'⟩

/-- Steps that others imply leave the lengths of longest paths alone. -/
theorem isGreatest_congr (h : ∀ a b, R a b → TransGen R' a b) (h' : ∀ a b, R' a b → TransGen R a b)
    {b : α} {k : Nat} (hk : IsGreatest {n | PathTo R n b} k) :
    IsGreatest {n | PathTo R' n b} k := by
  have hbound : ∀ n, PathTo R' n b → n ≤ k := fun n hpath => by
    obtain ⟨m, hle, hpath⟩ := hpath.exists_le h'
    exact hle.trans (hk.2 hpath)
  obtain ⟨m, hle, hpath⟩ := hk.1.exists_le h
  obtain rfl := Nat.le_antisymm hle (hbound m hpath)
  exact ⟨hpath, hbound⟩

end

/-! ## Batches -/

/-- Layers without empty ones, each ascending, are told by the places of the blocks. -/
theorem layers_ext {layers layers' : List (List BlockId)} (hne : ∀ layer ∈ layers, layer ≠ [])
    (hne' : ∀ layer ∈ layers', layer ≠ [])
    (hascend : ∀ layer ∈ layers, layer.Pairwise (·.index < ·.index))
    (hascend' : ∀ layer ∈ layers', layer.Pairwise (·.index < ·.index))
    (h : ∀ (k : Nat) b, (∃ layer, layers[k]? = some layer ∧ b ∈ layer) ↔
      ∃ layer, layers'[k]? = some layer ∧ b ∈ layer) : layers = layers' := by
  have hmem : ∀ {layers layers' : List (List BlockId)},
      (∀ (k : Nat) b, (∃ layer, layers[k]? = some layer ∧ b ∈ layer) ↔
        ∃ layer, layers'[k]? = some layer ∧ b ∈ layer) →
      ∀ {k : Nat} {layer layer'}, layers[k]? = some layer → layers'[k]? = some layer' →
        ∀ b ∈ layer, b ∈ layer' := by
    intro layers layers' h k layer layer' hk hk' b hb
    obtain ⟨layer'', hk'', hb⟩ := (h k b).1 ⟨layer, hk, hb⟩
    obtain rfl := Option.some.inj (hk'.symm.trans hk'')
    exact hb
  have hsome : ∀ {layers layers' : List (List BlockId)}, (∀ layer ∈ layers, layer ≠ []) →
      (∀ (k : Nat) b, (∃ layer, layers[k]? = some layer ∧ b ∈ layer) ↔
        ∃ layer, layers'[k]? = some layer ∧ b ∈ layer) →
      ∀ {k : Nat} {layer}, layers[k]? = some layer → ∃ layer', layers'[k]? = some layer' := by
    intro layers layers' hne h k layer hk
    obtain ⟨b, hb⟩ := List.exists_mem_of_ne_nil layer (hne layer (List.mem_of_getElem? hk))
    obtain ⟨layer', hk', -⟩ := (h k b).1 ⟨layer, hk, hb⟩
    exact ⟨layer', hk'⟩
  have hsymm := fun (k : Nat) b => (h k b).symm
  refine List.ext_getElem? fun k => ?_
  cases hk : layers[k]? with
  | some layer =>
    obtain ⟨layer', hk'⟩ := hsome hne h hk
    rw [hk']
    refine congrArg some (eq_of_ascending (hascend layer (List.mem_of_getElem? hk))
      (hascend' layer' (List.mem_of_getElem? hk')) fun b => ?_)
    exact ⟨hmem h hk hk' b, hmem hsymm hk' hk b⟩
  | none =>
    cases hk' : layers'[k]? with
    | none => rfl
    | some layer' =>
      obtain ⟨layer, hsome⟩ := hsome hne' hsymm hk'
      rw [hk] at hsome
      cases hsome

section

variable {signals : SignalTable} {x x' : Extraction} {nets nets' : NetMap}
  {constraints constraints' : List Constraint} {s s' : Schedule}

/-- A block is in the batch of the length of the longest path to it. -/
theorem exists_batch_iff (h : schedule signals x nets constraints = .ok s) {k : Nat} {b : BlockId} :
    (∃ batch, s.batches[k]? = some batch ∧ b ∈ batch) ↔ b ∈ x.analyzed.keys ∧
      IsGreatest {n | PathTo (Precedes constraints s.retained) n b} k := by
  have hnodup := (perm_nodes x).symm.nodup x.analyzed.nodup_keys
  have hperm := (schedule_eq_ok h).perm
  obtain ⟨explicit, full, levels, hlayout⟩ := Schedule.layout_of_schedule h
  constructor
  · rintro ⟨batch, hbatch, hb⟩
    refine ⟨hperm.mem_iff.1 ?_, hlayout.isGreatest_of_mem_batch hnodup hbatch hb⟩
    exact List.mem_flatten.2 ⟨batch, List.mem_of_getElem? hbatch, hb⟩
  · rintro ⟨hb, hgreatest⟩
    obtain ⟨batch, hbatch, hb⟩ := List.mem_flatten.1 (hperm.mem_iff.2 hb)
    obtain ⟨k', hk'⟩ := List.mem_iff_getElem?.1 hbatch
    obtain rfl := (hlayout.isGreatest_of_mem_batch hnodup hk' hb).unique hgreatest
    exact ⟨batch, hk', hb⟩

theorem ne_nil_of_mem_batches (h : schedule signals x nets constraints = .ok s) :
    ∀ batch ∈ s.batches, batch ≠ [] := by
  obtain ⟨explicit, full, levels, hlayout⟩ := Schedule.layout_of_schedule h
  exact fun batch hbatch => hlayout.batch_ne_nil hbatch

theorem batches_ascend (h : schedule signals x nets constraints = .ok s) :
    ∀ batch ∈ s.batches, batch.Pairwise (·.index < ·.index) := by
  obtain ⟨explicit, full, levels, hlayout⟩ := Schedule.layout_of_schedule h
  rw [hlayout.batches_eq]
  exact fun batch hbatch =>
    Schedule.pairwise_batchesOf hlayout.size_levels (pairwise_ascendingBy ..) hbatch

/-! ## Schedules from their edges -/

theorem ends_of_lower (hs : Schedules x nets constraints s) {a b : BlockId}
    (hab : LowerBatch s.batches a b) : a ∈ x.analyzed.keys ∧ b ∈ x.analyzed.keys := by
  obtain ⟨i, j, xs, ys, hxs, hys, ha, hb, -⟩ := hab
  have hmem : ∀ {c batch} {k : Nat}, s.batches[k]? = some batch → c ∈ batch →
      c ∈ x.analyzed.keys := fun hbatch hc =>
    hs.perm.mem_iff.1 (List.mem_flatten.2 ⟨_, List.mem_of_getElem? hbatch, hc⟩)
  exact ⟨hmem hxs ha, hmem hys hb⟩

/-- In a schedule the inferred edges join analysed blocks. -/
theorem ends_of_schedules (hs : Schedules x nets constraints s) {e : InferredEdge}
    (he : e ∈ InferredEdge.inferAll x nets) :
    e.writer ∈ x.analyzed.keys ∧ e.reader ∈ x.analyzed.keys := by
  by_cases hchain : Chain constraints e.reader e.writer
  · exact (ends_of_lower hs (hs.lower_of_chain hchain)).symm
  · exact ends_of_lower hs (hs.lower_of_retained e ((hs.mem_retained e).2 ⟨he, hchain⟩))

/-- Paths of constraints and retained edges lead to later blocks. -/
theorem earlier_of_path (hs : Schedules x nets constraints s) {a b : BlockId}
    (hab : TransGen (Precedes constraints s.retained) a b) : Earlier s.order a b := by
  have hstep : ∀ {a b}, Precedes constraints s.retained a b → Earlier s.order a b := by
    rintro a b (hconstraint | ⟨e, he, rfl, rfl⟩)
    · exact hs.earlier_of_chain (.single hconstraint)
    · exact hs.retained e he
  induction hab with
  | single hab => exact hstep hab
  | tail _ hbc ih => exact ih.trans (hstep hbc)

open Classical in
/-- A schedule keeps the edges that no chain leads against, and the others are sequential. -/
theorem edges_of_schedule (h : schedule signals x nets constraints = .ok s) :
    s.retained = (InferredEdge.inferAll x nets).filter
        (fun e => ¬ Chain constraints e.reader e.writer) ∧
      s.sequential = (InferredEdge.inferAll x nets).filter
        fun e => Chain constraints e.reader e.writer := by
  have hnodup := (perm_nodes x).symm.nodup x.analyzed.nodup_keys
  obtain ⟨explicit, full, levels, hlayout⟩ := Schedule.layout_of_schedule h
  rw [hlayout.retained_eq, hlayout.sequential_eq]
  constructor
  · refine List.filter_congr fun e he => ?_
    rw [Bool.eq_iff_iff, decide_eq_true_iff, ← hlayout.registered_iff hnodup he,
      Bool.not_eq_true', Bool.not_eq_true]
  · refine List.filter_congr fun e he => ?_
    rw [Bool.eq_iff_iff, decide_eq_true_iff, hlayout.registered_iff hnodup he]

/-- Blocks have a schedule if neither the constraints have a cycle nor the constraints and the edges
that no chain leads against. -/
theorem exists_schedule (signals : SignalTable)
    (hends : ∀ e ∈ InferredEdge.inferAll x nets,
      e.writer ∈ x.analyzed.keys ∧ e.reader ∈ x.analyzed.keys)
    (hconstraints : ∀ c ∈ constraints, c.before ∈ x.analyzed.keys ∧ c.after ∈ x.analyzed.keys)
    (hchain : ∀ b, ¬ Chain constraints b b) {retained : List InferredEdge}
    (hretained : ∀ e ∈ InferredEdge.inferAll x nets,
      ¬ Chain constraints e.reader e.writer → e ∈ retained)
    (hpath : ∀ b, ¬ TransGen (Precedes constraints retained) b b) :
    ∃ s, schedule signals x nets constraints = .ok s := by
  have hnodup := (perm_nodes x).symm.nodup x.analyzed.nodup_keys
  have hnode : ∀ {b}, b ∈ x.analyzed.keys → b ∈ ascendingBy BlockId.index x.analyzed.keys :=
    mem_ascendingBy_block.2
  obtain ⟨explicit, full, hgraphs⟩ := Schedule.exists_graphs
    (fun e he => (hends e he).imp hnode hnode) fun c hc => (hconstraints c hc).imp hnode hnode
  have hkept : ∀ a b, Precedes constraints ((InferredEdge.inferAll x nets).filter fun e =>
      !Schedule.registered (ascendingBy BlockId.index x.analyzed.keys) explicit e) a b →
      Precedes constraints retained a b := by
    rintro a b (hc | ⟨e, he, hends⟩)
    · exact .inl hc
    · obtain ⟨hmem, hregistered⟩ := List.mem_filter.1 he
      rw [Bool.not_eq_true', ← Bool.not_eq_true, hgraphs.registered_iff hnodup hmem] at hregistered
      exact .inr ⟨e, hretained e hmem hregistered, hends⟩
  have hexplicit := (hgraphs.explicit_levels hnodup).2 fun ⟨b, hb⟩ => hchain b hb
  have hfull := (hgraphs.full_levels hnodup).2 fun ⟨b, hb⟩ => hpath b (.mono hkept _ _ hb)
  rcases schedule_outcome signals rfl hgraphs with
    ⟨hlevels, -⟩ | ⟨-, hlevels, -⟩ | ⟨-, -, s, hs, -⟩
  · rw [hlevels] at hexplicit
    cases hexplicit
  · rw [hlevels] at hfull
    cases hfull
  · exact ⟨s, hs⟩

/-! ## Two runs of the scheduler -/

theorem Chain.precedes {retained : List InferredEdge} {a b : BlockId}
    (hab : Chain constraints a b) : TransGen (Precedes constraints retained) a b := by
  induction hab with
  | single h => exact .single (.inl h)
  | tail _ h ih => exact ih.tail (.inl h)

section

variable (hc : ∀ a b, Chain constraints a b ↔ Chain constraints' a b)

include hc

theorem transGen_precedes {retained : List InferredEdge} {a b : BlockId}
    (hab : Precedes constraints retained a b) :
    TransGen (Precedes constraints' retained) a b := by
  rcases hab with hconstraint | hedge
  · exact ((hc a b).1 (.single hconstraint)).precedes
  · exact .single (.inr hedge)

/-- A schedule of the same blocks with the same edges, under constraints that order the same blocks,
is the same. -/
theorem exists_schedule_of_edges (hkeys : ∀ b, b ∈ x'.analyzed.keys ↔ b ∈ x.analyzed.keys)
    (hedges : InferredEdge.inferAll x' nets' = InferredEdge.inferAll x nets)
    (signals' : SignalTable) (h : schedule signals x nets constraints = .ok s) :
    ∃ s', schedule signals' x' nets' constraints' = .ok s' ∧ s'.batches = s.batches ∧
      s'.retained = s.retained ∧ s'.sequential = s.sequential := by
  have hs := schedule_eq_ok h
  have hc' := fun a b => (hc a b).symm
  obtain ⟨s', hs'⟩ : ∃ s', schedule signals' x' nets' constraints' = .ok s' := by
    refine exists_schedule signals' (fun e he => ?_) (fun c hmem => ?_) (fun b hb => ?_)
      (fun e he hnochain => (hs.mem_retained e).2 ⟨hedges ▸ he, ?_⟩) fun b hb => ?_
    · rw [hkeys, hkeys]
      exact ends_of_schedules hs (hedges ▸ he)
    · rw [hkeys, hkeys]
      exact ends_of_lower hs (hs.lower_of_chain ((hc _ _).2 (.single hmem)))
    · exact absurd rfl (hs.earlier_of_chain ((hc b b).2 hb)).ne
    · rwa [hc]
    · exact absurd rfl
        (earlier_of_path hs (.closed (fun _ _ => transGen_precedes hc') _ _ hb)).ne
  obtain ⟨hretained, hsequential⟩ := edges_of_schedule h
  obtain ⟨hretained', hsequential'⟩ := edges_of_schedule hs'
  have hsame : s'.retained = s.retained := by
    rw [hretained', hretained, hedges]
    exact List.filter_congr fun e _ => decide_eq_decide.2 (not_congr (hc' _ _))
  have hbatches : s'.batches = s.batches := by
    refine layers_ext (ne_nil_of_mem_batches hs') (ne_nil_of_mem_batches h) (batches_ascend hs')
      (batches_ascend h) fun k b => ?_
    rw [exists_batch_iff hs', exists_batch_iff h, hkeys, hsame]
    refine and_congr_right fun _ => ⟨?_, ?_⟩
    · exact isGreatest_congr (fun _ _ => transGen_precedes hc') fun _ _ => transGen_precedes hc
    · exact isGreatest_congr (fun _ _ => transGen_precedes hc) fun _ _ => transGen_precedes hc'
  refine ⟨s', hs', hbatches, hsame, ?_⟩
  rw [hsequential', hsequential, hedges]
  exact List.filter_congr fun e _ => decide_eq_decide.2 (hc' _ _)

/-- So it is for extractions and nets that hold the same. -/
theorem exists_schedule_of_alike (hx : x.Alike x') (hn : nets.Alike nets')
    (h : schedule signals x nets constraints = .ok s) :
    ∃ s', schedule signals x' nets' constraints' = .ok s' ∧ s'.batches = s.batches ∧
      s'.retained = s.retained ∧ s'.sequential = s.sequential :=
  exists_schedule_of_edges hc (fun _ => hx.mem_keys) (InferredEdge.inferAll_congr hx hn) signals h

end

end

/-! ## Stages -/

/-- The stages of an elaboration after its checks: analyse blocks, resolve signals into nets, and
schedule the blocks. -/
def scheduleBlocks {μ : Type} (signals : SignalTable) (blocks : List (BlockId × UpdateBlock μ))
    (connections : List Connection) (options : ResolveOptions) (constraints : List Constraint) :
    Except ElaborationError Schedule := do
  let x ← (extract blocks).mapError .extract
  let nets ← (resolve signals connections x options).mapError .net
  (schedule signals x nets constraints).mapError .schedule

/-- An elaboration makes its checks, and then it goes through these stages. -/
theorem Design.elaborate_schedule {μ : Type} (d : Design μ) (config : SimConfig) :
    (d.elaborate config).map Elaboration.schedule = (do
      config.validate.mapError .config
      d.validate.mapError .config
      scheduleBlocks d.signals d.liveBlocks d.connections ⟨config.denyUndriven, Hierarchy.top⟩
        d.hierarchy.flattened.constraints) := by
  unfold elaborate scheduleBlocks
  simp only [bind, Except.bind]
  split
  · rfl
  · split
    · rfl
    · split
      · rfl
      · split
        · rfl
        · cases (schedule d.signals _ _ d.hierarchy.flattened.constraints).mapError
            ElaborationError.schedule with
          | error e => rfl
          | ok s => rfl

/-- Two runs give the same order, batches and edges, or they fail in the same stage. -/
inductive SameOutcome :
    Except ElaborationError Schedule → Except ElaborationError Schedule → Prop where
  | ok {s s'} (order : s'.order = s.order) (batches : s'.batches = s.batches)
    (retained : s'.retained = s.retained) (sequential : s'.sequential = s.sequential) :
    SameOutcome (.ok s) (.ok s')
  | error {e e'} (stage : e'.stage = e.stage) : SameOutcome (.error e) (.error e')

/-- Of two computations that succeed alike, both succeed or both fail. -/
theorem both_of_ok_iff {ε ε' α α' : Type} {r : Except ε α} {r' : Except ε' α'}
    (h : (∃ a, r = .ok a) ↔ ∃ a', r' = .ok a') :
    (∃ a a', r = .ok a ∧ r' = .ok a') ∨ ∃ e e', r = .error e ∧ r' = .error e' := by
  cases r with
  | ok a =>
    obtain ⟨a', ha'⟩ := h.1 ⟨a, rfl⟩
    exact .inl ⟨a, a', rfl, ha'⟩
  | error e =>
    cases r' with
    | ok a' =>
      obtain ⟨a, ha⟩ := h.2 ⟨a', rfl⟩
      cases ha
    | error e' => exact .inr ⟨e, e', rfl, rfl⟩

/-- A stage that succeeds in both runs or in none, and whose errors are of one stage, may come
before. -/
theorem SameOutcome.bind {ε α α' : Type} {wrap : ε → ElaborationError}
    (hwrap : ∀ e e', (wrap e').stage = (wrap e).stage) {r : Except ε α} {r' : Except ε α'}
    (h : (∃ a, r = .ok a) ↔ ∃ a', r' = .ok a') {f : α → Except ElaborationError Schedule}
    {f' : α' → Except ElaborationError Schedule}
    (hf : ∀ a a', r = .ok a → r' = .ok a' → SameOutcome (f a) (f' a')) :
    SameOutcome (r.mapError wrap >>= f) (r'.mapError wrap >>= f') := by
  rcases both_of_ok_iff h with ⟨a, a', ha, ha'⟩ | ⟨e, e', he, he'⟩
  · rw [ha, ha']
    exact hf a a' ha ha'
  · rw [he, he']
    exact .error (hwrap e e')

/-- **Schedules are canonical.**  Take blocks with different numbers in two orders, two lists of
connections between declared signals that connect the same signals, and two lists of constraints
that order the same blocks.  Either both lead to schedules, with the same order and batches and the
same edges, signals and sites included, or both fail in the same stage. -/
theorem scheduleBlocks_canonical {μ : Type} (signals : SignalTable) (options : ResolveOptions)
    {blocks blocks' : List (BlockId × UpdateBlock μ)} (hperm : blocks'.Perm blocks)
    (hnodup : (blocks.map Prod.fst).Nodup) {connections connections' : List Connection}
    (hin : ∀ c ∈ connections, c.a.index < signals.size ∧ c.b.index < signals.size)
    (hin' : ∀ c ∈ connections', c.a.index < signals.size ∧ c.b.index < signals.size)
    (hconnected : ∀ s t, Connected connections s t ↔ Connected connections' s t)
    {constraints constraints' : List Constraint}
    (hchain : ∀ a b, Chain constraints a b ↔ Chain constraints' a b) :
    SameOutcome (scheduleBlocks signals blocks connections options constraints)
      (scheduleBlocks signals blocks' connections' options constraints') := by
  have hnodup' : (blocks'.map Prod.fst).Nodup := (hperm.map Prod.fst).nodup_iff.2 hnodup
  have hextract : (∃ x, extract blocks = .ok x) ↔ ∃ x', extract blocks' = .ok x' := by
    constructor
    · rintro ⟨x, hx⟩
      obtain ⟨x', hx', -⟩ := exists_extract_of_perm hx hnodup hperm
      exact ⟨x', hx'⟩
    · rintro ⟨x', hx'⟩
      obtain ⟨x, hx, -⟩ := exists_extract_of_perm hx' hnodup' hperm.symm
      exact ⟨x, hx⟩
  unfold scheduleBlocks
  refine .bind (fun _ _ => rfl) hextract fun x x' hx hx' => ?_
  obtain ⟨y, hy, halike⟩ := exists_extract_of_perm hx hnodup hperm
  obtain rfl := Except.ok.inj (hx'.symm.trans hy)
  have hsame : resolve signals connections x' options = resolve signals connections' x' options :=
    resolve_congr hin hin' hconnected
  have hresolve : (∃ nets, resolve signals connections x options = .ok nets) ↔
      ∃ nets', resolve signals connections' x' options = .ok nets' := by
    rw [← hsame]
    exact ⟨exists_resolve_of_alike halike, exists_resolve_of_alike halike.symm⟩
  refine .bind (fun _ _ => rfl) hresolve fun nets nets' hnets hnets' => ?_
  have hnetsAlike := (resolve_eq_ok hnets).alike (resolve_eq_ok (hsame.trans hnets')) halike
  have hschedule : (∃ s, schedule signals x nets constraints = .ok s) ↔
      ∃ s', schedule signals x' nets' constraints' = .ok s' := by
    constructor
    · rintro ⟨s, hs⟩
      obtain ⟨s', hs', -⟩ := exists_schedule_of_alike hchain halike hnetsAlike hs
      exact ⟨s', hs'⟩
    · rintro ⟨s', hs'⟩
      obtain ⟨s, hs, -⟩ := exists_schedule_of_alike (fun a b => (hchain a b).symm)
        halike.symm hnetsAlike.symm hs'
      exact ⟨s, hs⟩
  rcases both_of_ok_iff hschedule with ⟨s, s', hs, hs'⟩ | ⟨e, e', he, he'⟩
  · obtain ⟨t, ht, hbatches, hretained, hsequential⟩ :=
      exists_schedule_of_alike hchain halike hnetsAlike hs
    obtain rfl := Except.ok.inj (hs'.symm.trans ht)
    rw [hs, hs']
    exact .ok (congrArg List.flatten hbatches) hbatches hretained hsequential
  · rw [he, he']
    exact .error rfl

theorem chain_of_forall {constraints constraints' : List Constraint}
    (h : ∀ c ∈ constraints, Chain constraints' c.before c.after) {a b : BlockId}
    (hab : Chain constraints a b) : Chain constraints' a b := by
  induction hab with
  | single hc => exact h _ hc
  | tail _ hc ih => exact ih.trans (h _ hc)

/-- Signals 0, 1 and 2 are to be connected.  Block 0 sets signal 0, block 1 copies signal 2 to
signal 3, which blocks 2 and 3 copy on. -/
def Design.relay : Design Unit :=
  ofEdits "top"
    [.declare "a" .wire "Bits8" Hierarchy.top, .declare "b" .wire "Bits8" Hierarchy.top,
      .declare "c" .wire "Bits8" Hierarchy.top, .declare "d" .wire "Bits8" Hierarchy.top,
      .declare "e" .wire "Bits8" Hierarchy.top, .declare "f" .wire "Bits8" Hierarchy.top,
      .registerBlock Hierarchy.top (.constant "first" ⟨0⟩ 1),
      .registerBlock Hierarchy.top (.copy "second" ⟨2⟩ ⟨3⟩),
      .registerBlock Hierarchy.top (.copy "third" ⟨3⟩ ⟨4⟩),
      .registerBlock Hierarchy.top (.copy "sample" ⟨3⟩ ⟨5⟩)]

/-- The blocks are listed backwards, with a connection and a constraint more than needed. -/
theorem relay_canonical : ∃ s s',
    scheduleBlocks Design.relay.signals Design.relay.liveBlocks [⟨⟨0⟩, ⟨1⟩⟩, ⟨⟨1⟩, ⟨2⟩⟩]
      ⟨false, Hierarchy.top⟩ [⟨⟨3⟩, ⟨1⟩⟩, ⟨⟨1⟩, ⟨2⟩⟩] = .ok s ∧
    scheduleBlocks Design.relay.signals Design.relay.liveBlocks.reverse
      [⟨⟨0⟩, ⟨2⟩⟩, ⟨⟨1⟩, ⟨2⟩⟩, ⟨⟨0⟩, ⟨1⟩⟩] ⟨false, Hierarchy.top⟩
      [⟨⟨3⟩, ⟨2⟩⟩, ⟨⟨1⟩, ⟨2⟩⟩, ⟨⟨3⟩, ⟨1⟩⟩] = .ok s' ∧
    s.batches = [[⟨0⟩, ⟨3⟩], [⟨1⟩], [⟨2⟩]] ∧ s'.batches = s.batches ∧
    s'.retained = s.retained ∧ s'.sequential = s.sequential ∧
    ∃ e ∈ s.sequential, e.writer = ⟨1⟩ ∧ e.reader = ⟨3⟩ := by
  have hcheck : ((scheduleBlocks Design.relay.signals Design.relay.liveBlocks
      [⟨⟨0⟩, ⟨1⟩⟩, ⟨⟨1⟩, ⟨2⟩⟩] ⟨false, Hierarchy.top⟩
      [⟨⟨3⟩, ⟨1⟩⟩, ⟨⟨1⟩, ⟨2⟩⟩]).toOption.any fun s =>
        decide (s.batches = [[⟨0⟩, ⟨3⟩], [⟨1⟩], [⟨2⟩]]) &&
          s.sequential.any fun e => decide (e.writer = ⟨1⟩) && decide (e.reader = ⟨3⟩)) =
      true := by
    decide +kernel
  obtain ⟨s, hs, hcheck⟩ := Design.exists_ok_of_any hcheck
  simp only [Bool.and_eq_true, decide_eq_true_eq, List.any_eq_true] at hcheck
  obtain ⟨hbatches, hsequential⟩ := hcheck
  have hsize : Design.relay.signals.size = 6 := by decide +kernel
  have hconnected : ∀ s t, Connected [⟨⟨0⟩, ⟨1⟩⟩, ⟨⟨1⟩, ⟨2⟩⟩] s t ↔
      Connected [⟨⟨0⟩, ⟨2⟩⟩, ⟨⟨1⟩, ⟨2⟩⟩, ⟨⟨0⟩, ⟨1⟩⟩] s t := by
    have h₀₁ : Connected [⟨⟨0⟩, ⟨1⟩⟩, ⟨⟨1⟩, ⟨2⟩⟩] ⟨0⟩ ⟨1⟩ := .rel _ _ (by decide)
    have h₁₂ : Connected [⟨⟨0⟩, ⟨1⟩⟩, ⟨⟨1⟩, ⟨2⟩⟩] ⟨1⟩ ⟨2⟩ := .rel _ _ (by decide)
    refine fun s t => ⟨connected_of_forall fun c hc => .rel _ _ ?_, connected_of_forall ?_⟩
    · revert c
      decide
    · simp only [List.forall_mem_cons, List.not_mem_nil, false_implies, implies_true, and_true]
      exact ⟨h₀₁.trans _ _ _ h₁₂, h₁₂, h₀₁⟩
  have hchain : ∀ a b, Chain [⟨⟨3⟩, ⟨1⟩⟩, ⟨⟨1⟩, ⟨2⟩⟩] a b ↔
      Chain [⟨⟨3⟩, ⟨2⟩⟩, ⟨⟨1⟩, ⟨2⟩⟩, ⟨⟨3⟩, ⟨1⟩⟩] a b := by
    have h₃₁ : Chain [⟨⟨3⟩, ⟨1⟩⟩, ⟨⟨1⟩, ⟨2⟩⟩] ⟨3⟩ ⟨1⟩ := .single (by decide)
    have h₁₂ : Chain [⟨⟨3⟩, ⟨1⟩⟩, ⟨⟨1⟩, ⟨2⟩⟩] ⟨1⟩ ⟨2⟩ := .single (by decide)
    refine fun a b => ⟨chain_of_forall fun c hc => .single ?_, chain_of_forall ?_⟩
    · revert c
      decide
    · simp only [List.forall_mem_cons, List.not_mem_nil, false_implies, implies_true, and_true]
      exact ⟨h₃₁.trans h₁₂, h₁₂, h₃₁⟩
  have hsame := scheduleBlocks_canonical Design.relay.signals ⟨false, Hierarchy.top⟩
    (List.reverse_perm Design.relay.liveBlocks) (Design.built_ofEdits _ _).nodup_liveBlocks
    (by rw [hsize]; decide) (by rw [hsize]; decide) hconnected hchain
  rw [hs] at hsame
  cases hs' : scheduleBlocks Design.relay.signals Design.relay.liveBlocks.reverse
      [⟨⟨0⟩, ⟨2⟩⟩, ⟨⟨1⟩, ⟨2⟩⟩, ⟨⟨0⟩, ⟨1⟩⟩] ⟨false, Hierarchy.top⟩
      [⟨⟨3⟩, ⟨2⟩⟩, ⟨⟨1⟩, ⟨2⟩⟩, ⟨⟨3⟩, ⟨1⟩⟩] with
  | error e =>
    rw [hs'] at hsame
    cases hsame
  | ok s' =>
    rw [hs'] at hsame
    cases hsame with
    | ok _ hbatches' hretained' hsequential' =>
      exact ⟨s, s', hs, rfl, hbatches, hbatches', hretained', hsequential', hsequential⟩

end Cyclewise
