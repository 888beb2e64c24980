import Cyclewise.Proofs.Block.Confined
import Cyclewise.Proofs.Net.Outputs
import Cyclewise.Proofs.Net.Relations
import Cyclewise.Proofs.Ring.Design
import Cyclewise.Proofs.Schedule.Reordering

/-!
# The schedule of a ring

Incrementer `i` is block `n - 1 - i`, so a step along the constraints goes from a block to the one
below it in number (`mem_ringConstraints`).  It writes signal `i` and reads the one before it
(`RingAccess`), which makes every signal a net of its own with one writer and one reader.  All edges
but the one that closes the ring go along the constraints.  So there is a schedule, its batches hold
one incrementer each (`Ring.batches_eq`), and the closing edge is the sequential one
(`Ring.sequential_eq`).
-/

namespace Cyclewise

open Relation (TransGen)

/-! ## Steps down -/

section

variable {n : Nat} {R : BlockId → BlockId → Prop}
  (hR : ∀ a b, R a b ↔ a.index = b.index + 1 ∧ a.index < n)

include hR

/-- Steps from a number below `n` to the one before it lead to all smaller numbers. -/
theorem transGen_down {a b : BlockId} : TransGen R a b ↔ b.index < a.index ∧ a.index < n := by
  constructor
  · intro h
    induction h with
    | single h =>
      have := (hR _ _).1 h
      omega
    | tail _ h ih =>
      have := (hR _ _).1 h
      omega
  · rintro ⟨hlt, ha⟩
    obtain ⟨k, hk⟩ : ∃ k, a.index = b.index + (k + 1) := ⟨a.index - b.index - 1, by omega⟩
    clear hlt
    induction k generalizing b with
    | zero => exact .single ((hR _ _).2 ⟨hk, ha⟩)
    | succ k ih =>
      have hstep : R ⟨b.index + 1⟩ b := (hR _ _).2 ⟨rfl, by simp only; omega⟩
      have hpath : TransGen R a ⟨b.index + 1⟩ := ih (by simp only; omega)
      exact hpath.tail hstep

theorem pathTo_down {k : Nat} {b : BlockId} (hb : b.index < n) :
    PathTo R k b ↔ b.index + k < n := by
  constructor
  · intro h
    induction h with
    | start => exact hb
    | step _ hab ih =>
      obtain ⟨hstep, ha⟩ := (hR _ _).1 hab
      have := ih ha
      omega
  · intro h
    induction k generalizing b with
    | zero => exact .start b
    | succ k ih =>
      have hstep : R ⟨b.index + 1⟩ b := (hR _ _).2 ⟨rfl, by simp only; omega⟩
      have hpath : PathTo R k ⟨b.index + 1⟩ := ih (by simp only; omega) (by simp only; omega)
      exact hpath.step hstep

/-- The longest path to a block comes from the greatest number. -/
theorem isGreatest_down {k : Nat} {b : BlockId} (hb : b.index < n) :
    IsGreatest {m | PathTo R m b} k ↔ b.index + k + 1 = n := by
  have hmem : ∀ m, m ∈ {m | PathTo R m b} ↔ b.index + m < n := fun m => pathTo_down hR hb
  constructor
  · rintro ⟨hk, hbound⟩
    have hle := hbound ((hmem (n - 1 - b.index)).2 (by omega))
    have := (hmem k).1 hk
    omega
  · intro hk
    refine ⟨(hmem k).2 (by omega), fun m hm => ?_⟩
    have := (hmem m).1 hm
    omega

end

/-! ## Accesses -/

namespace Extraction

variable {x : Extraction} {b : BlockId} {s : SignalId} {access : BlockAccess}
  (h : x.access? b = some access)

include h

theorem reads_iff : x.Reads b s ↔ s ∈ access.reads := by
  unfold Reads
  rw [h]
  simp

theorem writes_iff : x.Writes b s ↔ s ∈ access.writes := by
  unfold Writes
  rw [h]
  simp

end Extraction

namespace Design

variable {μ : Type} {d : Design μ} {n : Nat}

/-- The signal before signal `i` of a ring: the last one comes before the first one. -/
theorem ring_source {i : Nat} (hi : i < n) : (i + n - 1) % n = if i = 0 then n - 1 else i - 1 := by
  split
  · next h =>
    rw [h, Nat.zero_add]
    exact Nat.mod_eq_of_lt (by omega)
  · next h =>
    have hsum : i + n - 1 = (i - 1) + n := by omega
    rw [hsum, Nat.add_mod_right]
    exact Nat.mod_eq_of_lt (by omega)

/-- An incrementer reads the signal before its own. -/
theorem exists_analyze_ringCell {i : Nat} (hi : i < n) :
    ∃ a, (ringCell n i : UpdateBlock μ).analyze = .ok a ∧
      (∀ s, s ∈ a.access.reads ↔ s.index = if i = 0 then n - 1 else i - 1) ∧
      ∀ s, s ∈ a.access.writes ↔ s.index = i := by
  have hindex : ∀ (s : SignalId) (k : Nat), s = ⟨k⟩ ↔ s.index = k := fun s k =>
    ⟨congrArg SignalId.index, SignalId.eq_of_index s ⟨k⟩⟩
  obtain ⟨a, ha⟩ : ∃ a, (ringCell n i : UpdateBlock μ).analyze = .ok a := ⟨_, rfl⟩
  obtain ⟨hreads, hwrites⟩ := UpdateBlock.mem_access_ofAssignment ha
  refine ⟨a, ha, fun s => ?_, fun s => (hwrites s).trans (hindex s i)⟩
  rw [← ring_source hi, ← hindex, hreads]
  simp [Expr.reads, Expr.read]

/-- What the incrementers of a ring are called, and what they read and write. -/
structure RingAccess (n : Nat) (x : Extraction) : Prop where
  mem_keys : ∀ b, b ∈ x.analyzed.keys ↔ b.index < n
  name : ∀ b : BlockId, b.index < n → x.name b = s!"inc{n - 1 - b.index}"
  writes : ∀ b s, x.Writes b s ↔ b.index + s.index + 1 = n
  reads : ∀ b s, x.Reads b s ↔ b.index + s.index + 2 = n ∨ b.index + 1 = n ∧ s.index + 1 = n

namespace Ring

theorem mem_liveBlocks (hd : d.Ring n) {b : BlockId} {block : UpdateBlock μ} :
    (b, block) ∈ d.liveBlocks ↔ b.index < n ∧ block = ringCell n (n - 1 - b.index) := by
  rw [hd.built.mem_liveBlocks, hd.block?]
  split
  · next hb => simp [hb, eq_comm]
  · next hb => simp [hb]

theorem exists_extract (hd : d.Ring n) : ∃ x, extract d.liveBlocks = .ok x ∧ RingAccess n x := by
  have hall : ∀ p ∈ d.liveBlocks, ∃ a, p.2.analyze = .ok a := by
    rintro ⟨b, block⟩ hp
    obtain ⟨hb, rfl⟩ := hd.mem_liveBlocks.1 hp
    obtain ⟨a, ha, -⟩ := exists_analyze_ringCell (μ := μ) (n := n) (i := n - 1 - b.index) (by omega)
    exact ⟨a, ha⟩
  obtain ⟨x, hx⟩ : ∃ x, extract d.liveBlocks = .ok x := ⟨_, extract_of_analyzed hall⟩
  have hkeys : ∀ b, b ∈ x.analyzed.keys ↔ b.index < n := by
    intro b
    rw [hd.built.mem_keys_of_extract hx, hd.block?]
    split
    · next hb => simp [hb]
    · next hb => simp [hb]
  have hnone : ∀ {b access}, ¬ b.index < n → x.access? b ≠ some access := fun hb haccess =>
    hb ((hkeys _).1 (Extraction.mem_keys_of_access? haccess))
  have hfind : ∀ b : BlockId, b.index < n → ∃ access,
      x.access? b = some access ∧ x.name b = s!"inc{n - 1 - b.index}" ∧
      (∀ s, s ∈ access.reads ↔
        s.index = if n - 1 - b.index = 0 then n - 1 else n - 1 - b.index - 1) ∧
      ∀ s, s ∈ access.writes ↔ s.index = n - 1 - b.index := by
    intro b hb
    obtain ⟨a, ha, hreads, hwrites⟩ :=
      exists_analyze_ringCell (μ := μ) (n := n) (i := n - 1 - b.index) (by omega)
    have hfound := find?_of_extract hx hd.built.nodup_liveBlocks
      (hd.mem_liveBlocks.2 ⟨hb, rfl⟩) ha
    refine ⟨a.access, ?_, ?_, hreads, hwrites⟩
    · unfold Extraction.access?
      rw [hfound, Option.map_some]
    · unfold Extraction.name
      rw [hfound]
      rfl
  refine ⟨x, hx, hkeys, fun b hb => ?_, fun b s => ?_, fun b s => ?_⟩
  · obtain ⟨_, -, hname, -⟩ := hfind b hb
    exact hname
  · by_cases hb : b.index < n
    · obtain ⟨access, haccess, -, -, hwrites⟩ := hfind b hb
      rw [Extraction.writes_iff haccess, hwrites]
      omega
    · exact iff_of_false (fun ⟨_, haccess, _⟩ => hnone hb haccess) (by omega)
  · by_cases hb : b.index < n
    · obtain ⟨access, haccess, -, hreads, -⟩ := hfind b hb
      rw [Extraction.reads_iff haccess, hreads]
      split <;> omega
    · exact iff_of_false (fun ⟨_, haccess, _⟩ => hnone hb haccess) (by omega)

end Ring

/-! ## Nets -/

theorem connected_nil {s t : SignalId} : Connected [] s t ↔ s = t := by
  constructor
  · intro h
    induction h with
    | rel _ _ h => cases h
    | refl => rfl
    | symm _ _ _ ih => exact ih.symm
    | trans _ _ _ _ _ ih ih' => exact ih.trans ih'
  · rintro rfl
    exact .refl s

namespace Ring

variable (hd : d.Ring n)

include hd

/-- All signals of a ring are wires that are part of nothing. -/
theorem decl_of_get? {s : SignalId} {decl : SignalDef} (h : d.signals.get? s = some decl) :
    decl.kind = .wire ∧ decl.parent = none := by
  have hlt := SignalTable.lt_size_of_get? h
  rw [hd.signals] at hlt
  obtain rfl := Option.some.inj ((hd.get? s.index hlt).symm.trans h)
  exact ⟨rfl, rfl⟩

theorem not_partOf (s whole : SignalId) : ¬ d.signals.PartOf s whole := by
  intro h
  obtain ⟨p, hp, -⟩ := Relation.TransGen.head'_iff.1 h
  obtain ⟨decl, hdecl, hparent⟩ := Option.bind_eq_some_iff.1 hp
  rw [(hd.decl_of_get? hdecl).2] at hparent
  cases hparent

theorem sharesStorage_iff {s t : SignalId} : d.signals.SharesStorage s t ↔ s = t := by
  unfold SignalTable.SharesStorage
  simp [hd.not_partOf]

theorem not_isConst (s : SignalId) (v : UInt64) : ¬ d.signals.IsConst s v := by
  rintro ⟨decl, hdecl, hkind⟩
  rw [(hd.decl_of_get? hdecl).1] at hkind
  cases hkind

/-- Every signal has a net of its own. -/
theorem net?_eq_iff {x : Extraction} {nets : NetMap}
    (hnets : Resolves d.signals d.connections x nets) {s t : SignalId} (hs : s.index < n)
    (ht : t.index < n) : nets.net? s = nets.net? t ↔ s = t := by
  rw [hnets.net?_eq_iff (hd.signals.symm ▸ hs) (hd.signals.symm ▸ ht), hd.connections,
    connected_nil]

theorem exists_net? {x : Extraction} {nets : NetMap}
    (hnets : Resolves d.signals d.connections x nets) {i : Nat} (hi : i < n) :
    ∃ m, nets.net? ⟨i⟩ = some m :=
  hnets.exists_net? (hd.signals.symm ▸ hi)

variable {x : Extraction} (hx : RingAccess n x)

include hx

/-- Every signal has one writer, and nothing overlaps. -/
theorem exists_resolve (options : ResolveOptions) :
    ∃ nets, resolve d.signals d.connections x options = .ok nets := by
  have hdeclared : ∀ s ∈ mentionedSignals d.connections x, s.index < d.signals.size := by
    intro s hs
    unfold mentionedSignals at hs
    rw [hd.connections, List.flatMap_nil, List.nil_append, List.mem_flatMap] at hs
    obtain ⟨⟨b, access⟩, hb, hs⟩ := hs
    rw [Extraction.mem_blocks] at hb
    rw [hd.signals]
    rcases List.mem_append.1 hs with hs | hs
    · have := (hx.reads b s).1 ⟨access, hb, SignalSet.mem_toList.1 hs⟩
      omega
    · have := (hx.writes b s).1 ⟨access, hb, SignalSet.mem_toList.1 hs⟩
      omega
  have hcontested : ∀ m, ¬ Contested d.signals d.connections x m := by
    intro m hm
    rcases (exists_contested_iff hdeclared).1 ⟨m, hm⟩ with
      ⟨b, s, b', s', hne, hb, hb', hconnected⟩ | ⟨s, s', hne, -, -, hconnected⟩
    · rw [hd.connections, connected_nil] at hconnected
      subst hconnected
      have hs := (hx.writes b s).1 hb
      have hs' := (hx.writes b' s).1 hb'
      exact hne (BlockId.eq_of_index b b' (by omega))
    · rw [hd.connections, connected_nil] at hconnected
      exact hne hconnected
  rw [exists_resolve_iff]
  refine ⟨hdeclared, Wiring.conflicts_eq_nil.2 fun m _ => ⟨?_, ?_⟩, fun _ => ?_⟩
  · rw [← Bool.not_eq_true, Wiring.contested_ofDesign]
    exact hcontested m
  · by_contra hne
    obtain ⟨b, s, b', whole, hoverlap, -⟩ := (Wiring.overlaps_ne_nil hd.built.forest).1 hne
    exact hd.not_partOf s whole hoverlap.partOf
  · refine List.eq_nil_iff_forall_not_mem.2 fun ⟨s, path⟩ hs => ?_
    obtain ⟨⟨decl, hdecl, hkind, -⟩, -⟩ := (Wiring.mem_undrivenOutputs hd.built.forest
      (connection_lt_of_declared hdeclared)).1 hs
    rw [(hd.decl_of_get? hdecl).1] at hkind
    cases hkind

variable {nets : NetMap} (hnets : Resolves d.signals d.connections x nets)

include hnets

theorem mem_writers {s : SignalId} {m : NetId} (hm : nets.net? s = some m) {b : BlockId} :
    b ∈ nets.writers m ↔ b.index + s.index + 1 = n := by
  have hs := hnets.lt_of_net? hm
  rw [hd.signals] at hs
  rw [hnets.mem_writers, ← hx.writes]
  constructor
  · rintro ⟨access, haccess, t, ht, htm⟩
    have hwrites : x.Writes b t := ⟨access, haccess, ht⟩
    have := (hx.writes b t).1 hwrites
    obtain rfl := (hd.net?_eq_iff hnets (by omega) hs).1 (htm.trans hm.symm)
    exact hwrites
  · rintro ⟨access, haccess, hs⟩
    exact ⟨access, haccess, s, hs, hm⟩

theorem mem_readers {s : SignalId} {m : NetId} (hm : nets.net? s = some m) {b : BlockId} :
    b ∈ nets.readers m ↔ x.Reads b s := by
  have hs := hnets.lt_of_net? hm
  rw [hd.signals] at hs
  rw [hnets.mem_readers hd.built.forest]
  constructor
  · rintro ⟨access, haccess, t, ht, m', hm', s', t', hs', ht', hshare⟩
    obtain rfl := hd.sharesStorage_iff.1 hshare
    obtain rfl := Option.some.inj (hs'.symm.trans ht')
    have hreads : x.Reads b t := ⟨access, haccess, ht⟩
    have := (hx.reads b t).1 hreads
    have hsame : nets.net? t = nets.net? s := by rw [hm', ← hs', ht', hm]
    obtain rfl := (hd.net?_eq_iff hnets (by omega) hs).1 hsame
    exact hreads
  · rintro ⟨access, haccess, hread⟩
    exact ⟨access, haccess, s, hread, m, hm, s, s, hm, hm, .inl rfl⟩

/-- The inferred edges of a ring: from each incrementer to the next one, and from the last one to
the first one. -/
theorem mem_inferAll {e : InferredEdge} : e ∈ InferredEdge.inferAll x nets ↔
    ∃ s, nets.net? s = some e.net ∧ e.writer.index + s.index + 1 = n ∧ x.Reads e.reader s ∧
      e.writer ≠ e.reader ∧ InferredEdge.infer x nets e.net e.writer e.reader = e := by
  rw [InferredEdge.mem_inferAll]
  constructor
  · rintro ⟨m, w, r, -, hw, hr, hne, rfl⟩
    obtain ⟨access, haccess, s, hs, hm⟩ := hnets.mem_writers.1 hw
    exact ⟨s, hm, (hx.writes w s).1 ⟨access, haccess, hs⟩, (hd.mem_readers hx hnets hm).1 hr, hne,
      rfl⟩
  · rintro ⟨s, hm, hw, hr, hne, he⟩
    exact ⟨e.net, e.writer, e.reader, hnets.index_lt_size hm, (hd.mem_writers hx hnets hm).2 hw,
      (hd.mem_readers hx hnets hm).2 hr, hne, he⟩

/-- An inferred edge goes along the constraints, or it closes the ring. -/
theorem edge_cases {e : InferredEdge} (he : e ∈ InferredEdge.inferAll x nets) :
    e.writer.index = e.reader.index + 1 ∧ e.writer.index < n ∨
      2 ≤ n ∧ e.writer = ringBlock n (n - 1) ∧ e.reader = ringBlock n 0 ∧
        nets.net? ⟨n - 1⟩ = some e.net := by
  obtain ⟨s, hm, hw, hr, hne, -⟩ := (hd.mem_inferAll hx hnets).1 he
  rcases (hx.reads e.reader s).1 hr with hr | ⟨hr, hs⟩
  · exact .inl (by omega)
  · have hindex : e.writer.index ≠ e.reader.index := fun h => hne (BlockId.eq_of_index _ _ h)
    obtain rfl : s = ⟨n - 1⟩ := SignalId.eq_of_index _ _ (by simp only; omega)
    exact .inr ⟨by omega, (eq_ringBlock_iff (by omega)).2 (by omega),
      (eq_ringBlock_iff (by omega)).2 (by omega), hm⟩

/-- The edge that closes the ring. -/
theorem exists_closing (hn : 2 ≤ n) : ∃ e ∈ InferredEdge.inferAll x nets,
    e.writer = ringBlock n (n - 1) ∧ e.reader = ringBlock n 0 := by
  obtain ⟨m, hm⟩ := hd.exists_net? hnets (i := n - 1) (by omega)
  have hfirst := index_ringBlock (n := n) (i := 0) (by omega)
  have hlast := index_ringBlock (n := n) (i := n - 1) (by omega)
  refine ⟨InferredEdge.infer x nets m (ringBlock n (n - 1)) (ringBlock n 0),
    (hd.mem_inferAll hx hnets).2 ⟨⟨n - 1⟩, hm, hlast, ?_, fun h => ?_, rfl⟩, rfl, rfl⟩
  · exact (hx.reads _ _).2 (.inr ⟨hfirst, Nat.sub_add_cancel (by omega)⟩)
  · have hindex : (ringBlock n (n - 1)).index = (ringBlock n 0).index := congrArg BlockId.index h
    omega

end Ring

/-! ## Batches and registers -/

/-- No edge is listed twice. -/
theorem nodup_sequential {signals : SignalTable} {connections : List Connection} {x : Extraction}
    {nets : NetMap} {constraints : List Constraint} {s : Schedule}
    (hnets : Resolves signals connections x nets)
    (hs : schedule signals x nets constraints = .ok s) : s.sequential.Nodup := by
  classical
  rw [(edges_of_schedule hs).2]
  refine List.Nodup.filter _ ?_
  refine (InferredEdge.pairwise_inferAll hnets.writers_ascend hnets.readers_ascend).imp ?_
  rintro e f hbefore rfl
  unfold InferredEdge.Before at hbefore
  omega

theorem chain_ringConstraints {a b : BlockId} :
    Chain (ringConstraints n) a b ↔ b.index < a.index ∧ a.index < n :=
  transGen_down fun _ _ => mem_ringConstraints

/-- The constraints lead from the first incrementer to the last one. -/
theorem chain_first_last (hn : 2 ≤ n) :
    Chain (ringConstraints n) (ringBlock n 0) (ringBlock n (n - 1)) := by
  have hfirst := index_ringBlock (n := n) (i := 0) (by omega)
  have hlast := index_ringBlock (n := n) (i := n - 1) (by omega)
  exact chain_ringConstraints.2 (by omega)

namespace Ring

variable (hd : d.Ring n) {x : Extraction} (hx : RingAccess n x) {nets : NetMap}
  (hnets : Resolves d.signals d.connections x nets)

include hd hx hnets

/-- The edges that are kept say what the constraints say. -/
theorem precedes_iff {retained : List InferredEdge}
    (hretained : ∀ e ∈ retained, e ∈ InferredEdge.inferAll x nets ∧
      ¬ Chain (ringConstraints n) e.reader e.writer) (a b : BlockId) :
    Precedes (ringConstraints n) retained a b ↔ a.index = b.index + 1 ∧ a.index < n := by
  unfold Precedes
  rw [mem_ringConstraints]
  refine ⟨fun h => h.elim id ?_, .inl⟩
  rintro ⟨e, he, rfl, rfl⟩
  obtain ⟨hinferred, hchain⟩ := hretained e he
  rcases hd.edge_cases hx hnets hinferred with h | ⟨hn, hw, hr, -⟩
  · exact h
  · rw [hw, hr] at hchain
    exact absurd (chain_first_last hn) hchain

theorem exists_schedule : ∃ s, schedule d.signals x nets (ringConstraints n) = .ok s := by
  classical
  have hkey : ∀ b : BlockId, b.index < n → b ∈ x.analyzed.keys := fun b => (hx.mem_keys b).2
  obtain ⟨retained, hretained⟩ : ∃ retained : List InferredEdge, ∀ e, e ∈ retained ↔
      e ∈ InferredEdge.inferAll x nets ∧ ¬ Chain (ringConstraints n) e.reader e.writer :=
    ⟨(InferredEdge.inferAll x nets).filter fun e => ¬ Chain (ringConstraints n) e.reader e.writer,
      fun e => by rw [List.mem_filter, decide_eq_true_eq]⟩
  refine Cyclewise.exists_schedule d.signals (fun e he => ?_) (fun c hc => ?_) (fun b hb => ?_)
    (fun e he hchain => (hretained e).2 ⟨he, hchain⟩) fun b hb => ?_
  · obtain ⟨m, w, r, -, hw, hr, -, rfl⟩ := InferredEdge.mem_inferAll.1 he
    exact ⟨hnets.writer_mem_keys hw, hnets.reader_mem_keys hr⟩
  · obtain ⟨hstep, hlt⟩ := mem_ringConstraints.1 hc
    exact ⟨hkey _ hlt, hkey _ (by omega)⟩
  · exact Nat.lt_irrefl _ (chain_ringConstraints.1 hb).1
  · have hprecedes := hd.precedes_iff hx hnets fun e => (hretained e).1
    exact Nat.lt_irrefl _ ((transGen_down hprecedes).1 hb).1

variable {s : Schedule} (hs : schedule d.signals x nets (ringConstraints n) = .ok s)

include hs

/-- The batches hold one incrementer each, the first one first. -/
theorem batches_eq : s.batches = (List.range n).map fun i => [ringBlock n i] := by
  have hprecedes := hd.precedes_iff hx hnets fun e => ((schedule_eq_ok hs).mem_retained e).1
  have hbatch : ∀ (k : Nat) layer, ((List.range n).map fun i => [ringBlock n i])[k]? = some layer ↔
      k < n ∧ layer = [ringBlock n k] := by
    intro k layer
    rw [List.getElem?_eq_some_iff]
    simp [eq_comm]
  refine layers_ext (ne_nil_of_mem_batches hs) (fun layer hlayer => ?_) (batches_ascend hs)
    (fun layer hlayer => ?_) fun k b => ?_
  · obtain ⟨i, -, rfl⟩ := List.mem_map.1 hlayer
    exact List.cons_ne_nil _ _
  · obtain ⟨i, -, rfl⟩ := List.mem_map.1 hlayer
    exact List.pairwise_singleton _ _
  · rw [exists_batch_iff hs, hx.mem_keys]
    constructor
    · rintro ⟨hb, hgreatest⟩
      have hk := (isGreatest_down hprecedes hb).1 hgreatest
      refine ⟨_, (hbatch k _).2 ⟨by omega, rfl⟩, List.mem_singleton.2 ?_⟩
      exact (eq_ringBlock_iff (by omega)).2 (by omega)
    · rintro ⟨layer, hlayer, hb⟩
      obtain ⟨hk, rfl⟩ := (hbatch k layer).1 hlayer
      obtain rfl := List.mem_singleton.1 hb
      have hindex := index_ringBlock hk
      have hlt : (ringBlock n k).index < n := by omega
      exact ⟨hlt, (isGreatest_down hprecedes hlt).2 hindex⟩

/-- A sequential edge closes the ring. -/
theorem closes_of_mem_sequential {e : InferredEdge} (he : e ∈ s.sequential) :
    2 ≤ n ∧ e.writer = ringBlock n (n - 1) ∧ e.reader = ringBlock n 0 ∧
      nets.net? ⟨n - 1⟩ = some e.net := by
  obtain ⟨hinferred, hchain⟩ := ((schedule_eq_ok hs).mem_sequential e).1 he
  refine (hd.edge_cases hx hnets hinferred).resolve_left fun h => ?_
  have := chain_ringConstraints.1 hchain
  omega

theorem eq_of_mem_sequential {e e' : InferredEdge} (he : e ∈ s.sequential)
    (he' : e' ∈ s.sequential) : e' = e := by
  have hinfer : ∀ e ∈ s.sequential, InferredEdge.infer x nets e.net e.writer e.reader = e := by
    intro e he
    have hinferred := (((schedule_eq_ok hs).mem_sequential e).1 he).1
    obtain ⟨-, -, -, -, -, h⟩ := (hd.mem_inferAll hx hnets).1 hinferred
    exact h
  obtain ⟨-, hw, hr, hm⟩ := hd.closes_of_mem_sequential hx hnets hs he
  obtain ⟨-, hw', hr', hm'⟩ := hd.closes_of_mem_sequential hx hnets hs he'
  rw [← hinfer e he, ← hinfer e' he', hw, hw', hr, hr', Option.some.inj (hm.symm.trans hm')]

/-- The edge that closes the ring is the only sequential one; a single incrementer has none. -/
theorem sequential_eq : (n = 1 → s.sequential = []) ∧ (2 ≤ n → ∃ e, s.sequential = [e] ∧
    e.writer = ringBlock n (n - 1) ∧ e.reader = ringBlock n 0) := by
  constructor
  · intro hn
    refine List.eq_nil_iff_forall_not_mem.2 fun e he => ?_
    have := (hd.closes_of_mem_sequential hx hnets hs he).1
    omega
  · intro hn
    obtain ⟨e, he, hw, hr⟩ := hd.exists_closing hx hnets hn
    have hsequential : e ∈ s.sequential := by
      rw [(schedule_eq_ok hs).mem_sequential, hw, hr]
      exact ⟨he, chain_first_last hn⟩
    refine ⟨e, List.perm_singleton.1 ?_, hw, hr⟩
    refine (List.perm_ext_iff_of_nodup (nodup_sequential hnets hs)
      (List.nodup_singleton e)).2 fun e' => ?_
    rw [List.mem_singleton]
    exact ⟨hd.eq_of_mem_sequential hx hnets hs hsequential, fun h => h ▸ hsequential⟩

end Ring

/-! ## Elaboration -/

/-- The schedule of a ring: one incrementer to a batch, the first one first, and the edge that closes
the ring as the only register. -/
structure RingSchedule (n : Nat) (e : Elaboration) : Prop where
  batches : e.schedule.batches = (List.range n).map fun i => [ringBlock n i]
  order : e.schedule.order = (List.range n).map (ringBlock n)
  names : e.schedule.order.map e.extraction.name = (List.range n).map fun i => s!"inc{i}"
  no_register : n = 1 → e.schedule.sequential = []
  register : 2 ≤ n → ∃ edge, e.schedule.sequential = [edge] ∧
    edge.writer = ringBlock n (n - 1) ∧ edge.reader = ringBlock n 0

/-- A ring is elaborated under all settings that allow a cycle. -/
theorem Ring.exists_elaborate (hd : d.Ring n) {config : SimConfig}
    (hconfig : config.validate = .ok ()) :
    ∃ e, d.elaborate config = .ok e ∧ RingSchedule n e := by
  obtain ⟨x, hextract, hx⟩ := hd.exists_extract
  obtain ⟨nets, hresolve⟩ := hd.exists_resolve hx ⟨config.denyUndriven, Hierarchy.top⟩
  have hnets := resolve_eq_ok hresolve
  obtain ⟨s, hs⟩ := hd.exists_schedule hx hnets
  have hconstraints : d.hierarchy.flattened.constraints = ringConstraints n := by
    rw [hd.built.hierarchy.flattened_eq]
    exact hd.constraints
  have hstages : d.Stages config ⟨x, nets, s, d.revision⟩ :=
    ⟨hextract, hresolve, by rw [hconstraints]; exact hs, rfl⟩
  have hvalid : d.validate = .ok () := validate_of_declared fun c hc => by
    rw [hd.connections] at hc
    cases hc
  have hbatches := hd.batches_eq hx hnets hs
  have horder : s.order = (List.range n).map (ringBlock n) := by
    unfold Schedule.order
    rw [hbatches, ← List.flatMap_def, ← List.map_eq_flatMap]
  obtain ⟨hsingle, hclosing⟩ := hd.sequential_eq hx hnets hs
  refine ⟨_, hstages.elaborate_eq hconfig hvalid, hbatches, horder, ?_, hsingle, hclosing⟩
  show s.order.map x.name = _
  rw [horder, List.map_map]
  refine List.map_congr_left fun i hi => ?_
  have hblock := index_ringBlock (List.mem_range.1 hi)
  have hindex : n - 1 - (ringBlock n i).index = i := by omega
  show x.name (ringBlock n i) = _
  rw [hx.name _ (by omega), hindex]

end Design

end Cyclewise
