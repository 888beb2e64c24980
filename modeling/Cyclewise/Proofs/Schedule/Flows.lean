import Cyclewise.Proofs.Schedule.Classification

/-!
# What the diagnostics show of a block

A dependency of a block passes three groupings on its way to the diagnostics: by pairs of signals,
by pairs of nets, and by blocks.  None of them loses a place in the text or lists one twice
(`Diagnostics.nodup_ends`, `Diagnostics.mem_spans`).  So between two nets the diagnostics have one
edge of a block if the block has a dependency between them, with the distinct places of all such
dependencies, and no edge otherwise (`Design.flows_exact`).
-/

namespace Cyclewise

/-- Where the keys do not repeat, a key has one item. -/
theorem filter_key_eq {α κ : Type} [DecidableEq κ] {key : α → κ} {xs : List α}
    (h : (xs.map key).Nodup) {x : α} (hx : x ∈ xs) :
    xs.filter (fun y => key y = key x) = [x] := by
  induction xs with
  | nil => cases hx
  | cons y ys ih =>
    rw [List.map_cons, List.nodup_cons] at h
    rw [List.filter_cons]
    rcases List.mem_cons.1 hx with rfl | hx
    · have hrest : ys.filter (fun y => key y = key x) = [] := by
        refine List.filter_eq_nil_iff.2 fun z hz heq => h.1 ?_
        rw [← of_decide_eq_true heq]
        exact List.mem_map_of_mem hz
      rw [if_pos (decide_eq_true rfl), hrest]
    · have hne : key y ≠ key x := by
        intro heq
        rw [heq] at h
        exact h.1 (List.mem_map_of_mem hx)
      rw [if_neg (by simpa using hne), ih h.2 hx]

namespace BlockAnalysis

/-- The dependencies of signals of one net on signals of another one, in the order of the text. -/
def between (a : BlockAnalysis) (nets : NetMap) (n m : NetId) : List Dependency :=
  a.dependencies.filter fun d => nets.net? d.read = some n ∧ nets.net? d.written = some m

theorem mem_between {a : BlockAnalysis} {nets : NetMap} {n m : NetId} {d : Dependency} :
    d ∈ a.between nets n m ↔
      d ∈ a.dependencies ∧ nets.net? d.read = some n ∧ nets.net? d.written = some m := by
  unfold between
  rw [List.mem_filter, decide_eq_true_eq]

end BlockAnalysis

namespace FlowEdge

/-- The nets that an edge leads from and to, and its block. -/
def ends (f : FlowEdge) : NetId × NetId × BlockId := (f.source, f.target, f.block)

end FlowEdge

/-! ## The edges of the diagnostics -/

namespace Diagnostics

/-- The edges of a block from one net to another one. -/
def flows (d : Diagnostics) (n m : NetId) (b : BlockId) : List FlowEdge :=
  d.edges.filter (·.ends = (n, m, b))

variable {nets : NetMap} {order : List BlockId} {sequential : List InferredEdge} {n m : NetId}
  {b : BlockId}

theorem map_ends_flowEdges (rank? : BlockId → Option Nat) (e : NetEdge) :
    (flowEdges nets rank? e).map FlowEdge.ends =
      (e.sites.map DepSite.block).eraseDups.map fun b => (e.source, e.target, b) := by
  unfold flowEdges
  rw [List.map_map]
  rfl

/-- A block has one edge between two nets at most. -/
theorem nodup_ends (h : (nets.edges.map NetEdge.ends).Nodup) :
    ((build nets order sequential).edges.map FlowEdge.ends).Nodup := by
  unfold build
  rw [List.map_flatMap, List.nodup_flatMap]
  refine ⟨fun e _ => ?_, (List.pairwise_map.1 h).imp fun {e e'} hne => ?_⟩
  · rw [map_ends_flowEdges]
    refine (nodup_eraseDups _).map fun b b' hb => ?_
    exact (Prod.mk.inj (Prod.mk.inj hb).2).2
  · have hends : ∀ {k e}, k ∈ (flowEdges nets (order.idxOf? ·) e).map FlowEdge.ends →
        (k.1, k.2.1) = e.ends := by
      intro k e hk
      rw [map_ends_flowEdges] at hk
      obtain ⟨b, -, rfl⟩ := List.mem_map.1 hk
      rfl
    exact fun k hk hk' => hne ((hends hk).symm.trans (hends hk'))

/-- Each block with a site between two nets has an edge between them. -/
theorem exists_flow (order : List BlockId) (sequential : List InferredEdge) {e : NetEdge}
    (he : e ∈ nets.edges) {site : DepSite} (hsite : site ∈ e.sites) :
    ∃ f ∈ (build nets order sequential).edges, f.ends = (e.source, e.target, site.block) := by
  refine ⟨_, List.mem_flatMap.2 ⟨e, he, List.mem_map.2 ⟨site.block, ?_, rfl⟩⟩, rfl⟩
  exact List.mem_eraseDups.2 (List.mem_map_of_mem hsite)

/-- The places of an edge are those of the sites of its block. -/
theorem spans_eq {f : FlowEdge} (hf : f ∈ (build nets order sequential).edges) :
    ∃ e ∈ nets.edges, e.source = f.source ∧ e.target = f.target ∧
      f.spans = (e.sites.filter (·.block = f.block)).map DepSite.span := by
  obtain ⟨e, he, hf⟩ := List.mem_flatMap.1 hf
  obtain ⟨b, -, rfl⟩ := List.mem_map.1 hf
  exact ⟨e, he, rfl, rfl, rfl⟩

section

variable {signals : SignalTable} {connections : List Connection} {x : Extraction}
  (h : Resolves signals connections x nets)

include h

/-- An edge lists no place twice. -/
theorem nodup_spans {f : FlowEdge} (hf : f ∈ (build nets order sequential).edges) :
    f.spans.Nodup := by
  obtain ⟨e, he, -, -, hspans⟩ := spans_eq hf
  rw [hspans]
  refine ((h.nodup_sites he).filter _).map_on fun s hs s' hs' hspan => ?_
  have hblock : s.block = s'.block :=
    (of_decide_eq_true (List.mem_filter.1 hs).2).trans
      (of_decide_eq_true (List.mem_filter.1 hs').2).symm
  obtain ⟨b, span⟩ := s
  obtain ⟨b', span'⟩ := s'
  obtain rfl : b = b' := hblock
  obtain rfl : span = span' := hspan
  rfl

/-- An edge lists every site of its block between its nets. -/
theorem mem_spans {f : FlowEdge} (hf : f ∈ (build nets order sequential).edges) {span : Span} :
    span ∈ f.spans ↔ ∃ e ∈ nets.edges, e.source = f.source ∧ e.target = f.target ∧
      ⟨f.block, span⟩ ∈ e.sites := by
  obtain ⟨e, he, hsource, htarget, hspans⟩ := spans_eq hf
  rw [hspans, List.mem_map]
  constructor
  · rintro ⟨⟨b, span⟩, hsite, rfl⟩
    obtain ⟨hsite, hblock⟩ := List.mem_filter.1 hsite
    obtain rfl : b = f.block := of_decide_eq_true hblock
    exact ⟨e, he, hsource, htarget, hsite⟩
  · rintro ⟨e', he', hsource', htarget', hsite⟩
    obtain rfl : e' = e := by
      refine List.inj_on_of_nodup_map h.nodup_ends he' he ?_
      exact Prod.ext (hsource'.trans hsource.symm) (htarget'.trans htarget.symm)
    exact ⟨_, List.mem_filter.2 ⟨hsite, decide_eq_true rfl⟩, rfl⟩

end

end Diagnostics

/-! ## The dependencies of a live block -/

namespace Design

variable {μ : Type} {d : Design μ} {config : SimConfig} {e : Elaboration}

section

variable (hd : d.Built) (he : d.Stages config e) {b : BlockId} {block : UpdateBlock μ}
  (hb : d.hierarchy.block? b = some block) {a : BlockAnalysis} (ha : block.analyze = .ok a)
  {n m : NetId} (hne : n ≠ m)

include hd he hb ha hne

/-- The sites of a live block are the places of the dependencies that its analysis finds. -/
theorem Stages.exists_site_iff {span : Span} :
    (∃ edge ∈ e.nets.edges, edge.source = n ∧ edge.target = m ∧ ⟨b, span⟩ ∈ edge.sites) ↔
      ∃ dep ∈ a.between e.nets n m, dep.span = span := by
  rw [he.resolves.exists_edge_iff, (extract_eq_ok he.extract).1]
  simp only [mem_sites_mergeAnalyses, BlockAnalysis.mem_between]
  constructor
  · rintro ⟨-, r, w, hr, hw, block', a', hblock', ha', hdep⟩
    obtain rfl : block' = block :=
      Option.some.inj ((hd.mem_liveBlocks.1 hblock').symm.trans hb)
    obtain rfl : a' = a := Except.ok.inj (ha'.symm.trans ha)
    exact ⟨⟨r, w, span⟩, ⟨hdep, hr, hw⟩, rfl⟩
  · rintro ⟨⟨r, w, span⟩, ⟨hdep, hr, hw⟩, rfl⟩
    exact ⟨hne, r, w, hr, hw, block, a, hd.mem_liveBlocks.2 hb, ha, hdep⟩

/-- A dependency between two nets shows in one edge, with all places of such dependencies. -/
theorem Stages.exists_flows_eq (hsome : a.between e.nets n m ≠ []) :
    ∃ f, e.schedule.diagnostics.flows n m b = [f] ∧ f.spans.Nodup ∧
      ∀ span, span ∈ f.spans ↔ ∃ dep ∈ a.between e.nets n m, dep.span = span := by
  have hsites (span : Span) :
      (∃ edge ∈ e.nets.edges, edge.source = n ∧ edge.target = m ∧ ⟨b, span⟩ ∈ edge.sites) ↔
        ∃ dep ∈ a.between e.nets n m, dep.span = span := he.exists_site_iff hd hb ha hne
  obtain ⟨dep, hdep⟩ := List.exists_mem_of_ne_nil _ hsome
  obtain ⟨edge, hedge, rfl, rfl, hsite⟩ := (hsites dep.span).2 ⟨dep, hdep, rfl⟩
  obtain ⟨f, hf, hends⟩ :=
    Diagnostics.exists_flow e.schedule.order e.schedule.sequential hedge hsite
  have hflows := filter_key_eq (Diagnostics.nodup_ends he.resolves.nodup_ends) hf
  rw [hends, ← diagnostics_of_schedule he.schedule] at hflows
  obtain ⟨hsource, hrest⟩ := Prod.mk.inj hends
  obtain ⟨htarget, hblock⟩ := Prod.mk.inj hrest
  refine ⟨f, hflows, Diagnostics.nodup_spans he.resolves hf, fun span => ?_⟩
  rw [Diagnostics.mem_spans he.resolves hf, hsource, htarget, hblock]
  exact hsites span

/-- An edge comes from a dependency. -/
theorem Stages.between_ne_nil (hflows : e.schedule.diagnostics.flows n m b ≠ []) :
    a.between e.nets n m ≠ [] := by
  obtain ⟨f, hf⟩ := List.exists_mem_of_ne_nil _ hflows
  obtain ⟨hf, hends⟩ := List.mem_filter.1 hf
  obtain ⟨hsource, hrest⟩ := Prod.mk.inj (of_decide_eq_true hends)
  obtain ⟨htarget, hblock⟩ := Prod.mk.inj hrest
  rw [diagnostics_of_schedule he.schedule] at hf
  obtain ⟨-, edge, hedge, hsource', htarget', ⟨b', span⟩, hsite, hblock'⟩ :=
    Diagnostics.exists_site hf
  obtain rfl : b' = b := hblock'.trans hblock
  obtain ⟨dep, hdep, -⟩ := (he.exists_site_iff hd hb ha hne).1
    ⟨edge, hedge, hsource'.trans hsource, htarget'.trans htarget, hsite⟩
  exact List.ne_nil_of_mem hdep

end

/-- **Dependencies in the diagnostics.**  In an elaborated design take a live block and two
different nets.  The diagnostics have an edge of the block between the nets just if the analysis of
the block finds a dependency between them.  Then it is the only such edge, and it lists just the
places of these dependencies, each once. -/
theorem flows_exact (hd : d.Built) (he : d.elaborate config = .ok e) {b : BlockId}
    {block : UpdateBlock μ} (hb : d.hierarchy.block? b = some block) :
    ∃ a, block.analyze = .ok a ∧ ∀ n m, n ≠ m →
      (e.schedule.diagnostics.flows n m b ≠ [] ↔ a.between e.nets n m ≠ []) ∧
      (a.between e.nets n m ≠ [] → ∃ f, e.schedule.diagnostics.flows n m b = [f] ∧
        f.spans.Nodup ∧ ∀ span, span ∈ f.spans ↔ ∃ dep ∈ a.between e.nets n m, dep.span = span) := by
  have hstages := elaborate_eq_ok he
  obtain ⟨-, hanalyzed⟩ := extract_eq_ok hstages.extract
  obtain ⟨a, ha⟩ := hanalyzed _ (hd.mem_liveBlocks.2 hb)
  refine ⟨a, ha, fun n m hne => ?_⟩
  have hone := hstages.exists_flows_eq hd hb ha hne
  refine ⟨⟨hstages.between_ne_nil hd hb ha hne, fun hsome => ?_⟩, hone⟩
  obtain ⟨f, hflows, -⟩ := hone hsome
  rw [hflows]
  exact List.cons_ne_nil f []

/-- A block that computes signal 2 from signals 0 and 1, and then from signal 1 alone. -/
def mixer : UpdateBlock Unit where
  name := "mix"
  body :=
    [.set ⟨2⟩ (.binary .add (.read ⟨0⟩) (.read ⟨1⟩)) (.ofLine 1), .set ⟨2⟩ (.read ⟨1⟩) (.ofLine 2)]
  behavior := .ofRoutine fun _ _ => do
    let value ← Routine.read ⟨1⟩
    Routine.write ⟨2⟩ value

/-- The sources of the mixer are connected, and its result is copied. -/
def mixing : Design Unit :=
  ofEdits "top"
    [.declare "a" .wire "Bits8" Hierarchy.top, .declare "b" .wire "Bits8" Hierarchy.top,
      .declare "c" .wire "Bits8" Hierarchy.top, .declare "d" .wire "Bits8" Hierarchy.top,
      .connect ⟨0⟩ ⟨1⟩, .registerBlock Hierarchy.top mixer,
      .registerBlock Hierarchy.top (.copy "tap" ⟨2⟩ ⟨3⟩)]

/-- The mixer has three dependencies between its nets, at two places, and the copy has none. -/
theorem mixing_flows : ∃ e, mixing.elaborate {} = .ok e ∧
    (∃ f, e.schedule.diagnostics.flows ⟨0⟩ ⟨1⟩ ⟨0⟩ = [f] ∧ f.spans.Nodup ∧
      ∀ span, span ∈ f.spans ↔ span = .ofLine 1 ∨ span = .ofLine 2) ∧
    e.schedule.diagnostics.flows ⟨0⟩ ⟨1⟩ ⟨1⟩ = [] := by
  have hcheck : ((mixing.elaborate {}).toOption.any fun e =>
      (mixer.analyze.toOption.any fun a =>
        decide ((a.between e.nets ⟨0⟩ ⟨1⟩).map Dependency.span =
          [.ofLine 1, .ofLine 1, .ofLine 2])) &&
      (.copy "tap" ⟨2⟩ ⟨3⟩ : UpdateBlock Unit).analyze.toOption.any fun a =>
        decide ((a.between e.nets ⟨0⟩ ⟨1⟩).map Dependency.span = [])) = true := by
    decide +kernel
  obtain ⟨e, he, hcheck⟩ := exists_ok_of_any hcheck
  obtain ⟨hmixer, htap⟩ := Bool.and_eq_true_iff.1 hcheck
  have hd : mixing.Built := built_ofEdits _ _
  refine ⟨e, he, ?_, ?_⟩
  · have hlive : mixing.hierarchy.block? ⟨0⟩ = some mixer := by cbv
    obtain ⟨a, ha, hflows⟩ := flows_exact hd he hlive
    rw [ha] at hmixer
    have hspans := of_decide_eq_true hmixer
    have hsome : a.between e.nets ⟨0⟩ ⟨1⟩ ≠ [] := by
      intro hnil
      rw [hnil] at hspans
      cases hspans
    obtain ⟨f, hf, hnodup, hmem⟩ := (hflows ⟨0⟩ ⟨1⟩ (by decide)).2 hsome
    refine ⟨f, hf, hnodup, fun span => ?_⟩
    rw [hmem, ← List.mem_map, hspans]
    simp
  · have hlive : mixing.hierarchy.block? ⟨1⟩ = some (.copy "tap" ⟨2⟩ ⟨3⟩) := by cbv
    obtain ⟨a, ha, hflows⟩ := flows_exact hd he hlive
    rw [ha] at htap
    have hnil := List.map_eq_nil_iff.1 (of_decide_eq_true htap)
    by_contra hne
    exact (hflows ⟨0⟩ ⟨1⟩ (by decide)).1.1 hne hnil

end Design

end Cyclewise
